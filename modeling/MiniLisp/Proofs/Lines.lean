import Mathlib.Data.List.Forall2
import Mathlib.Data.List.TakeWhile
import MiniLisp.Proofs.Incomplete

/-!
Reading line by line.  What a text reads as depends on nothing but the kinds and texts of
its tokens, and the tokens of two texts with a line feed between them are those of the
first and then those of the second.  So behind a text that can be read, a later line reads
as it does alone.
-/

namespace MiniLisp

/-! ### Tokens without places -/

/-- What a token is, apart from where it stands. -/
def Token.outline (token : Token) : Token.Kind × Bytes :=
  (token.kind, token.text)

theorem Token.kind_of_outline {token token' : Token} (heq : token.outline = token'.outline) :
    token'.kind = token.kind :=
  (congrArg Prod.fst heq).symm

theorem Token.text_of_outline {token token' : Token} (heq : token.outline = token'.outline) :
    token'.text = token.text :=
  (congrArg Prod.snd heq).symm

/-- Two streams of the same tokens, be it at other places. -/
def SameTokens (tokens tokens' : List Token) : Prop :=
  List.Forall₂ (fun token token' => token.outline = token'.outline) tokens tokens'

namespace SameTokens

theorem of_append {first rest tokens : List Token} (hsame : SameTokens (first ++ rest) tokens) :
    ∃ first' rest', tokens = first' ++ rest' ∧ SameTokens first first' ∧
      SameTokens rest rest' := by
  have hflip : List.Forall₂ (fun token token' => Token.outline token' = Token.outline token)
      tokens (first ++ rest) := List.Forall₂.flip hsame
  refine ⟨_, _, (List.take_append_drop first.length tokens).symm, ?_, ?_⟩
  · exact (List.forall₂_take_append _ _ _ hflip).flip
  · exact (List.forall₂_drop_append _ _ _ hflip).flip

theorem withoutComments {tokens tokens' : List Token} (hsame : SameTokens tokens tokens') :
    SameTokens (TokenReader.withoutComments tokens)
      (TokenReader.withoutComments tokens') := by
  induction hsame with
  | nil => exact .nil
  | @cons token token' tokens tokens' heq _ ih =>
      have hkind := Token.kind_of_outline heq
      by_cases hcomment : token.kind = .comment
      · simpa [TokenReader.withoutComments, hkind, hcomment] using ih
      · have hpair : SameTokens (token :: TokenReader.withoutComments tokens)
            (token' :: TokenReader.withoutComments tokens') := .cons heq ih
        simpa [TokenReader.withoutComments, hkind, hcomment] using hpair

end SameTokens

mutual

/-- What an expression reads as does not depend on places. -/
theorem Phrase.of_sameTokens {limit : Int} {outer : Nat} {tokens tokens' : List Token}
    {value : Value} (hphrase : Phrase limit outer tokens value)
    (hsame : SameTokens tokens tokens') : Phrase limit outer tokens' value := by
  match hphrase with
  | .int hkind hvalue hrange =>
      cases hsame with
      | cons heq hnil =>
          cases hnil
          rw [← Token.kind_of_outline heq] at hkind
          rw [← Token.text_of_outline heq] at hvalue
          exact .int hkind hvalue hrange
  | .string hkind hvalue =>
      cases hsame with
      | cons heq hnil =>
          cases hnil
          rw [← Token.kind_of_outline heq] at hkind
          rw [← Token.text_of_outline heq] at hvalue
          exact .string hkind hvalue
  | .symbol hkind =>
      cases hsame with
      | cons heq hnil =>
          cases hnil
          rw [← Token.kind_of_outline heq] at hkind
          rw [← Token.text_of_outline heq]
          exact .symbol hkind
  | .quote hkind hadmits hquoted =>
      cases hsame with
      | cons heq hrest =>
          rw [← Token.kind_of_outline heq] at hkind
          exact .quote hkind hadmits (hquoted.of_sameTokens hrest)
  | .list hopener hadmits hitems hcloser =>
      cases hsame with
      | cons heq hrest =>
          obtain ⟨items, last, rfl, hsameItems, hlast⟩ := SameTokens.of_append hrest
          cases hlast with
          | cons heq' hnil =>
              cases hnil
              rw [← Token.kind_of_outline heq] at hopener
              rw [← Token.kind_of_outline heq'] at hcloser
              exact .list hopener hadmits (hitems.of_sameTokens hsameItems) hcloser
  | .dotted hopener hadmits hitems hvalues hdot htail hcloser =>
      cases hsame with
      | cons heq hrest =>
          obtain ⟨items, last, rfl, hsameItems, hlast⟩ := SameTokens.of_append hrest
          cases hlast with
          | cons heq' hlast =>
              obtain ⟨tail, closer, rfl, hsameTail, hcloser'⟩ := SameTokens.of_append hlast
              cases hcloser' with
              | cons heq'' hnil =>
                  cases hnil
                  rw [← Token.kind_of_outline heq] at hopener
                  rw [← Token.kind_of_outline heq'] at hdot
                  rw [← Token.kind_of_outline heq''] at hcloser
                  exact .dotted hopener hadmits (hitems.of_sameTokens hsameItems) hvalues hdot
                    (htail.of_sameTokens hsameTail) hcloser

@[inherit_doc Phrase.of_sameTokens]
theorem Phrases.of_sameTokens {limit : Int} {outer : Nat} {tokens tokens' : List Token}
    {values : List Value} (hphrases : Phrases limit outer tokens values)
    (hsame : SameTokens tokens tokens') : Phrases limit outer tokens' values := by
  match hphrases with
  | .nil =>
      cases hsame
      exact .nil
  | .cons hfirst hrest =>
      obtain ⟨first, rest, rfl, hsameFirst, hsameRest⟩ := hsame.of_append
      exact .cons (hfirst.of_sameTokens hsameFirst) (hrest.of_sameTokens hsameRest)

end

namespace Lexer

/-- A text has one stream of tokens, apart from places. -/
theorem Cuts.sameTokens {text : List Glyph} {tokens tokens' : List Token}
    {fault fault' : Option Fault} (hcuts : Cuts text tokens fault)
    (hcuts' : Cuts text tokens' fault') : SameTokens tokens tokens' ∧ fault = fault' := by
  induction hcuts generalizing tokens' with
  | ended hlexeme =>
      obtain ⟨rfl, rfl⟩ := hcuts'.of_ended hlexeme
      exact ⟨.nil, rfl⟩
  | stopped hlexeme =>
      cases hcuts' with
      | ended hlexeme' => simp [hlexeme'] at hlexeme
      | stopped hlexeme' =>
          rw [hlexeme'] at hlexeme
          cases hlexeme
          exact ⟨.nil, rfl⟩
      | token hlexeme' => simp [hlexeme'] at hlexeme
  | token hlexeme htext _ ih =>
      obtain ⟨token', more, rfl, hkind, htext', hrest'⟩ := hcuts'.of_token hlexeme
      obtain ⟨hsame, rfl⟩ := ih hrest'
      exact ⟨.cons (by rw [Token.outline, Token.outline, hkind, htext', htext]) hsame, rfl⟩

/-! ### Tokens of a longer text -/

/-- What follows a text that ends where a token does: it goes on with a line feed. -/
def Delimited (rest more : List Glyph) : Prop :=
  rest = [] → more.head? = some (.char '\n')

theorem takeWhile_dropWhile_delimited {p : Char → Bool} (hline : p '\n' = false)
    {text more : List Glyph} (hend : Delimited (text.dropWhile (Glyph.satisfies p)) more) :
    (text ++ more).takeWhile (Glyph.satisfies p) = text.takeWhile (Glyph.satisfies p) ∧
      (text ++ more).dropWhile (Glyph.satisfies p) =
        text.dropWhile (Glyph.satisfies p) ++ more := by
  refine takeWhile_dropWhile_append fun hnil => ?_
  rw [hend hnil]
  exact hline

theorem literalOver_append {done text literal rest : List Glyph} {escaped : Bool}
    (hliteral : literalOver done escaped text = .ok (literal, rest)) (more : List Glyph) :
    literalOver done escaped (text ++ more) = .ok (literal, rest ++ more) := by
  induction text generalizing done escaped with
  | nil => simp [literalOver] at hliteral
  | cons glyph text ih =>
      rcases glyph with c | byte
      · rw [literalOver] at hliteral
        rw [List.cons_append, literalOver]
        split_ifs at hliteral ⊢
        · exact ih hliteral
        · cases hliteral
          rfl
        · exact ih hliteral
      · simp [literalOver] at hliteral

theorem startsInt_append {c : Char} {behind more : List Glyph}
    (hend : Delimited behind more) : startsInt c (behind ++ more) = startsInt c behind := by
  cases behind with
  | nil => simp [startsInt, hend rfl, Glyph.satisfies, isDigit]
  | cons glyph behind => rfl

/-- A token that is cut from a text is cut from every longer one, unless it might go on. -/
theorem lexemeFrom_append {c : Char} {behind taken rest : List Glyph} {kind : Token.Kind}
    (hlexeme : lexemeFrom c behind = .token kind taken rest) {more : List Glyph}
    (hend : Delimited rest more) :
    lexemeFrom c (behind ++ more) = .token kind taken (rest ++ more) := by
  have hrun : ∀ kind (p : Char → Bool), p '\n' = false →
      Delimited (behind.dropWhile (Glyph.satisfies p)) more →
      runLexeme kind p c (behind ++ more) =
        .token kind (.char c :: behind.takeWhile (Glyph.satisfies p))
          (behind.dropWhile (Glyph.satisfies p) ++ more) := by
    intro kind p hline hend
    obtain ⟨htake, hdrop⟩ := takeWhile_dropWhile_delimited hline hend
    rw [runLexeme, htake, hdrop]
  have hempty : ∀ p : Char → Bool, Delimited (behind.dropWhile (Glyph.satisfies p)) more →
      Delimited behind more := by
    rintro p hend rfl
    exact hend rfl
  have hint := fun hend => @startsInt_append c behind more hend
  simp only [startsInt] at hint
  rw [lexemeFrom] at hlexeme ⊢
  split_ifs at hlexeme with hopen hclose hquote hcomment hstring hdigit
  · cases hlexeme
    rw [if_pos hopen]
  · cases hlexeme
    rw [if_neg hopen, if_pos hclose]
  · cases hlexeme
    rw [if_neg hopen, if_neg hclose, if_pos hquote]
  · cases hlexeme
    rw [if_neg hopen, if_neg hclose, if_neg hquote, if_pos hcomment]
    exact hrun .comment _ rfl hend
  · rw [if_neg hopen, if_neg hclose, if_neg hquote, if_neg hcomment, if_pos hstring]
    rw [stringLexeme] at hlexeme ⊢
    split at hlexeme
    · next hliteral =>
        cases hlexeme
        rw [literalOver_append hliteral]
    · cases hlexeme
  · cases hlexeme
    rw [if_neg hopen, if_neg hclose, if_neg hquote, if_neg hcomment, if_neg hstring,
      hint (hempty _ hend), if_pos hdigit]
    exact hrun .int isDigit rfl hend
  · cases hlexeme
    rw [if_neg hopen, if_neg hclose, if_neg hquote, if_neg hcomment, if_neg hstring,
      hint (hempty _ hend), if_neg hdigit, symbolLexeme,
      (takeWhile_dropWhile_delimited rfl hend).1]
    exact hrun _ isSymbolChar rfl hend

@[inherit_doc lexemeFrom_append]
theorem lexeme_append {text taken rest : List Glyph} {kind : Token.Kind}
    (hlexeme : lexeme text = .token kind taken rest) {more : List Glyph}
    (hend : Delimited rest more) : lexeme (text ++ more) = .token kind taken (rest ++ more) := by
  rw [lexeme] at hlexeme
  split at hlexeme
  · cases hlexeme
  · cases hlexeme
  · next c behind hdrop =>
      have hdrop' : (text ++ more).dropWhile (Glyph.satisfies isBlank) =
          .char c :: (behind ++ more) := by
        rw [List.dropWhile_append, hdrop]
        rfl
      rw [lexeme, hdrop']
      exact lexemeFrom_append hlexeme hend

/-- The tokens of a text and then of a later line are those of both. -/
theorem Cuts.append_line {text later : List Glyph} {tokens tokens' : List Token}
    {fault : Option Fault} (hcuts : Cuts text tokens none) (hlater : Cuts later tokens' fault) :
    Cuts (text ++ .char '\n' :: later) (tokens ++ tokens') fault := by
  generalize hnone : (none : Option Fault) = clear at hcuts
  induction hcuts with
  | ended hlexeme => exact hlater.congr (lexeme_append_line hlexeme later).symm
  | stopped hlexeme => cases hnone
  | token hlexeme htext _ ih =>
      exact .token (lexeme_append hlexeme fun _ => rfl) htext (ih hnone)

end Lexer

/-! ### Reading -/

namespace TokenReader

/-- Behind expressions that are read, reading goes on with what follows. -/
theorem readAllOver_phrases_append {reader : TokenReader} {tokens : List Token}
    {values : List Value} (hphrases : Phrases reader.limit 0 tokens values)
    (rest : List Token) (found : List Value) :
    (readAllOver reader (tokens ++ rest) .top found).1 =
      (readAllOver reader rest .top (values.reverse ++ found)).1 := by
  induction values generalizing tokens found with
  | nil =>
      cases hphrases
      rfl
  | cons value values ih =>
      cases hphrases with
      | cons hfirst hrest =>
          have hexpects : Nest.Expects [] := trivial
          rw [List.append_assoc, Nest.top, readAllOver_phrase hfirst _ hexpects found]
          simpa [Nest.top, Nest.supply, continueAll] using ih hrest (value :: found)

/-- Expressions behind other expressions are expressions by themselves. -/
theorem phrases_append_iff {limit : Int} {first rest : List Token} {values all : List Value}
    (hcomments : ∀ token ∈ rest, token.kind ≠ .comment)
    (hfirst : Phrases limit 0 first values) :
    Phrases limit 0 (first ++ rest) all ↔
      ∃ more, Phrases limit 0 rest more ∧ all = values ++ more := by
  constructor
  · intro hall
    -- A reader takes the first expressions and then goes on with the others.
    let reader : TokenReader := ⟨none, [], ⟨default, none⟩, ⟨default, none⟩, limit⟩
    have hread : (readAllOver reader (first ++ rest) .top []).1 = .ok ([].reverse ++ all) :=
      readAllOver_program hall rfl []
    rw [@readAllOver_phrases_append reader first values hfirst rest []] at hread
    obtain ⟨_, more, heq, hmore⟩ := phrases_of_readAllOver hcomments rfl .top hread
    exact ⟨more, hmore, by simpa using heq⟩
  · rintro ⟨more, hmore, rfl⟩
    exact hfirst.append hmore

/-- Reading a text succeeds with the values of its tokens, wherever they are cut from. -/
theorem readAll_eq_ok_of_cuts {file text : Bytes} {limit : Int} {tokens : List Token}
    {fault : Option Lexer.Fault} (hcuts : Lexer.Cuts (glyphs text) tokens fault)
    (values : List Value) :
    (ofBytes file text limit).readAll.1 = .ok values ↔
      fault = none ∧ Phrases limit 0 (withoutComments tokens) values := by
  obtain ⟨_, hcuts', _⟩ := Lexer.tokens_ofBytes file text
  obtain ⟨hsame, rfl⟩ := hcuts.sameTokens hcuts'
  have hrun : (ofBytes file text limit).readAll.1 =
      (readAllOver (ofBytes file text limit)
        (withoutComments (Lexer.ofBytes file text).tokens.1) .top []).1 :=
    readAllOver_withoutComments _ _ _ _
  rw [hrun]
  constructor
  · intro hread
    have hcomments : ∀ token ∈ withoutComments (Lexer.ofBytes file text).tokens.1,
        token.kind ≠ .comment := by simp [withoutComments]
    obtain ⟨hclear, later, rfl, hphrases⟩ := phrases_of_readAllOver hcomments rfl .top hread
    have hback : SameTokens (withoutComments (Lexer.ofBytes file text).tokens.1)
        (withoutComments tokens) :=
      (hsame.withoutComments.flip).imp fun _ _ heq => heq.symm
    exact ⟨hclear, hphrases.of_sameTokens hback⟩
  · rintro ⟨hclear, hphrases⟩
    exact readAllOver_program (hphrases.of_sameTokens hsame.withoutComments) hclear []

/-- Reading distributes over lines: behind a text that can be read, a later line reads as
it does alone. -/
theorem readAll_append_line {file text : Bytes} {limit : Int} {values : List Value}
    (hread : (ofBytes file text limit).readAll.1 = .ok values) (file' file'' later : Bytes)
    (all : List Value) :
    (ofBytes file' (text ++ 10 :: later) limit).readAll.1 = .ok all ↔
      ∃ more, (ofBytes file'' later limit).readAll.1 = .ok more ∧ all = values ++ more := by
  obtain ⟨_, hcuts, _⟩ := Lexer.tokens_ofBytes file text
  obtain ⟨_, hlater, _⟩ := Lexer.tokens_ofBytes file'' later
  obtain ⟨hclear, hphrases⟩ := (readAll_eq_ok_of_cuts hcuts values).mp hread
  rw [hclear] at hcuts
  have hboth := hcuts.append_line hlater
  rw [← glyphs_append_line] at hboth
  have hfilter : withoutComments ((Lexer.ofBytes file text).tokens.1 ++
      (Lexer.ofBytes file'' later).tokens.1) =
        withoutComments (Lexer.ofBytes file text).tokens.1 ++
          withoutComments (Lexer.ofBytes file'' later).tokens.1 := by
    simp [withoutComments]
  rw [readAll_eq_ok_of_cuts hboth, hfilter,
    phrases_append_iff (by simp [withoutComments]) hphrases]
  simp only [readAll_eq_ok_of_cuts hlater]
  constructor
  · rintro ⟨hnone, more, hmore, rfl⟩
    exact ⟨more, ⟨hnone, hmore⟩, rfl⟩
  · rintro ⟨more, ⟨hnone, hmore⟩, rfl⟩
    exact ⟨hnone, more, hmore, rfl⟩

theorem readAll_nil (file : Bytes) (limit : Int) :
    (ofBytes file [] limit).readAll.1 = .ok [] :=
  (readAll_eq_ok_of_cuts (.ended rfl) []).mpr ⟨rfl, .nil⟩

/-- What is read is read under any name. -/
theorem readAll_name {file text : Bytes} {limit : Int} {values : List Value}
    (hread : (ofBytes file text limit).readAll.1 = .ok values) (file' : Bytes) :
    (ofBytes file' text limit).readAll.1 = .ok values := by
  obtain ⟨_, hcuts, _⟩ := Lexer.tokens_ofBytes file text
  exact (readAll_eq_ok_of_cuts hcuts values).mpr ((readAll_eq_ok_of_cuts hcuts values).mp hread)

theorem readAll_cons_line {file text : Bytes} {limit : Int} {values : List Value} :
    (ofBytes file (10 :: text) limit).readAll.1 = .ok values ↔
      (ofBytes file text limit).readAll.1 = .ok values := by
  have hline := readAll_append_line (readAll_nil file limit) file file text values
  rw [List.nil_append] at hline
  rw [hline]
  simp

/-- The text of lines, each behind a line feed. -/
def linesBelow (lines : List Bytes) : Bytes :=
  lines.flatMap (10 :: ·)

theorem readAll_append_linesBelow {file text : Bytes} {limit : Int}
    {values more : List Value} {lines : List Bytes}
    (hread : (ofBytes file text limit).readAll.1 = .ok values)
    (hmore : (ofBytes file (linesBelow lines) limit).readAll.1 = .ok more) :
    (ofBytes file (text ++ linesBelow lines) limit).readAll.1 = .ok (values ++ more) := by
  cases lines with
  | nil =>
      cases (readAll_nil file limit).symm.trans hmore
      simpa [linesBelow] using hread
  | cons line lines =>
      rw [linesBelow, List.flatMap_cons, List.cons_append] at hmore ⊢
      exact (readAll_append_line hread file file _ _).mpr
        ⟨more, readAll_cons_line.mp hmore, rfl⟩

theorem readAll_blank {file text : Bytes} {limit : Int}
    (hblank : ∀ glyph ∈ glyphs text, Glyph.satisfies isBlank glyph = true) :
    (ofBytes file text limit).readAll.1 = .ok [] := by
  have hended : Lexer.lexeme (glyphs text) = .ended := by
    rw [Lexer.lexeme, List.dropWhile_eq_nil_iff.mpr hblank]
  exact (readAll_eq_ok_of_cuts (.ended hended) []).mpr ⟨rfl, .nil⟩

end TokenReader

end MiniLisp
