import Mathlib.Tactic.SplitIfs
import MiniLisp.Token.Lexer

/-!
The token stream of a text.  Which token comes next depends on nothing but the
glyphs ahead: `Lexer.lexeme` names it without its place in the source, and
`Cuts` names the whole stream that way.  `Lexer.tokens` is the stream that
repeated calls of `Lexer.next` give, and it is cut from the glyphs of the text.
-/

namespace MiniLisp

/-- A class splits a longer text at the same place, unless the text ends inside of the
class and goes on with it. -/
theorem takeWhile_dropWhile_append {α : Type} {p : α → Bool} {text more : List α}
    (hend : text.dropWhile p = [] → more.head?.any p = false) :
    (text ++ more).takeWhile p = text.takeWhile p ∧
      (text ++ more).dropWhile p = text.dropWhile p ++ more := by
  induction text with
  | nil =>
      have hhead := hend rfl
      cases more with
      | nil => exact ⟨rfl, rfl⟩
      | cons first more =>
          have hfirst : p first = false := hhead
          simp [hfirst]
  | cons first text ih =>
      by_cases hfirst : p first = true
      · have hrest := ih (by simpa [hfirst] using hend)
        simp [hfirst, hrest]
      · simp [hfirst]

/-- A run ends in front of what is not of its class. -/
theorem eq_false_of_dropWhile {p : Char → Bool} {text rest : List Glyph} {c : Char}
    (hdrop : text.dropWhile (Glyph.satisfies p) = .char c :: rest) : p c = false := by
  have hnot := List.head?_dropWhile_not (Glyph.satisfies p) text
  rw [hdrop] at hnot
  exact hnot

/-- A run of a class is a run of characters. -/
theorem exists_chars_takeWhile (p : Char → Bool) (text : List Glyph) :
    ∃ chars : List Char, text.takeWhile (Glyph.satisfies p) = chars.map .char ∧
      ∀ c ∈ chars, p c = true := by
  induction text with
  | nil => exact ⟨[], rfl, by simp⟩
  | cons glyph text ih =>
      rcases glyph with c | byte
      · by_cases hc : p c = true
        · obtain ⟨chars, htake, hchars⟩ := ih
          exact ⟨c :: chars, by simp [Glyph.satisfies, hc, htake], by simpa [hc] using hchars⟩
        · exact ⟨[], by simp [Glyph.satisfies, hc], by simp⟩
      · exact ⟨[], by simp [Glyph.satisfies], by simp⟩

theorem isChar_of_dropWhile {p : Char → Bool} {text rest : List Glyph} {glyph : Glyph}
    (hdrop : text.dropWhile (Glyph.satisfies p) = glyph :: rest) {c : Char}
    (hc : p c = true) : glyph.isChar c = false := by
  cases glyph with
  | stray byte => rfl
  | char other =>
      have hother := eq_false_of_dropWhile hdrop
      have hne : other ≠ c := by
        rintro rfl
        exact absurd hc (Bool.eq_false_iff.mp hother)
      simp [Glyph.isChar, Glyph.satisfies, hne]

namespace Scanner

@[simp]
theorem pass_taken (s : Scanner) (c : Char) (rest : List Glyph) :
    (s.pass c rest).taken = .char c :: s.taken := rfl

@[simp]
theorem pass_ahead (s : Scanner) (c : Char) (rest : List Glyph) :
    (s.pass c rest).ahead = rest := rfl

theorem advanceOver_ahead (p : Char → Bool) {ahead : List Glyph} {s : Scanner}
    (hahead : s.ahead = ahead) :
    (advanceOver p ahead s).ahead = ahead.dropWhile (Glyph.satisfies p) := by
  induction ahead generalizing s with
  | nil => simpa [advanceOver] using hahead
  | cons glyph rest ih =>
      cases glyph with
      | stray byte => simpa [advanceOver, Glyph.satisfies] using hahead
      | char c =>
          by_cases hc : p c = true
          · simpa [advanceOver, Glyph.satisfies, hc] using ih (s := s.pass c rest) rfl
          · simpa [advanceOver, Glyph.satisfies, hc] using hahead

theorem advanceOver_taken (p : Char → Bool) (ahead : List Glyph) (s : Scanner) :
    (advanceOver p ahead s).taken =
      (ahead.takeWhile (Glyph.satisfies p)).reverse ++ s.taken := by
  induction ahead generalizing s with
  | nil => simp [advanceOver]
  | cons glyph rest ih =>
      cases glyph with
      | stray byte => simp [advanceOver, Glyph.satisfies]
      | char c =>
          by_cases hc : p c = true
          · simp [advanceOver, Glyph.satisfies, hc, ih]
          · simp [advanceOver, Glyph.satisfies, hc]

theorem advanceWhile_ahead (s : Scanner) (p : Char → Bool) :
    (s.advanceWhile p).ahead = s.ahead.dropWhile (Glyph.satisfies p) :=
  advanceOver_ahead p rfl

theorem advanceWhile_taken (s : Scanner) (p : Char → Bool) :
    (s.advanceWhile p).taken =
      (s.ahead.takeWhile (Glyph.satisfies p)).reverse ++ s.taken :=
  advanceOver_taken p s.ahead s

end Scanner

namespace Lexer

/-- What stands at the front of a text, apart from where it stands. -/
inductive Lexeme where
  /-- Nothing but white space. -/
  | ended
  /-- A token that cannot be read. -/
  | stopped (fault : Fault)
  /-- A token, its glyphs and those behind it. -/
  | token (kind : Token.Kind) (taken rest : List Glyph)
deriving DecidableEq, Repr

/-- The rest of a string literal behind `done` (latest first), up to its closing
quote; `escaped` says that the next character is escaped. -/
def literalOver (done : List Glyph) : (escaped : Bool) → List Glyph →
    Except Fault (List Glyph × List Glyph)
  | _, [] => .error .unterminatedString
  | _, .stray byte :: _ => .error (.strayByte byte)
  | escaped, .char c :: rest =>
      if escaped then literalOver (.char c :: done) false rest
      else if c = '"' then .ok ((.char c :: done).reverse, rest)
      else literalOver (.char c :: done) (c = '\\') rest

def stringLexeme (c : Char) (rest : List Glyph) : Lexeme :=
  match literalOver [.char c] false rest with
  | .ok (literal, rest) => .token .string literal rest
  | .error fault => .stopped fault

/-- The longest token of a kind whose later characters are of the class `p`. -/
def runLexeme (kind : Token.Kind) (p : Char → Bool) (c : Char) (rest : List Glyph) :
    Lexeme :=
  .token kind (.char c :: rest.takeWhile (Glyph.satisfies p))
    (rest.dropWhile (Glyph.satisfies p))

def symbolLexeme (c : Char) (rest : List Glyph) : Lexeme :=
  let name := Glyph.char c :: rest.takeWhile (Glyph.satisfies isSymbolChar)
  runLexeme (if glyphBytes name = utf8 "." then .dot else .symbol) isSymbolChar c rest

def lexemeFrom (c : Char) (rest : List Glyph) : Lexeme :=
  if c = '(' then .token .openParen [.char c] rest
  else if c = ')' then .token .closeParen [.char c] rest
  else if c = '\'' then .token .quote [.char c] rest
  else if c = ';' then runLexeme .comment (· != '\n') c rest
  else if c = '"' then stringLexeme c rest
  else if isDigit c || c == '-' && rest.head?.any (Glyph.satisfies isDigit) then
    runLexeme .int isDigit c rest
  else symbolLexeme c rest

/-- The lexeme at the front of a text, behind white space. -/
def lexeme (text : List Glyph) : Lexeme :=
  match text.dropWhile (Glyph.satisfies isBlank) with
  | [] => .ended
  | .stray byte :: _ => .stopped (.strayByte byte)
  | .char c :: rest => lexemeFrom c rest

theorem lexeme_char {c : Char} (hblank : isBlank c = false) (behind : List Glyph) :
    lexeme (.char c :: behind) = lexemeFrom c behind := by
  have hdrop : (Glyph.char c :: behind).dropWhile (Glyph.satisfies isBlank) =
      .char c :: behind := by simp [Glyph.satisfies, hblank]
  rw [lexeme, hdrop]

/-- A lexeme describes a token and the lexer behind it. -/
def Lexeme.Describes (lexeme : Lexeme) (cut : Token × Lexer) : Prop :=
  match lexeme with
  | .ended => cut.1.kind = .endOfInput ∧ cut.2.fault = none
  | .stopped fault => cut.1.kind = .error ∧ cut.2.fault = some fault
  | .token kind taken rest =>
      cut.1.kind = kind ∧ cut.1.text = glyphBytes taken ∧
        cut.2.fault = none ∧ cut.2.scanner.ahead = rest

/-- The scanner's walk along a string literal finds the literal and nothing else. -/
theorem stringOver_eq_literalOver (ahead : List Glyph) (escaped : Bool) (s : Scanner) :
    match literalOver s.taken escaped ahead with
    | .ok (literal, rest) =>
        (stringOver ahead escaped s).1 = none ∧
          (stringOver ahead escaped s).2.taken.reverse = literal ∧
          (stringOver ahead escaped s).2.ahead = rest
    | .error fault => (stringOver ahead escaped s).1 = some fault := by
  induction ahead generalizing escaped s with
  | nil => simp [literalOver, stringOver]
  | cons glyph rest ih =>
      cases glyph with
      | stray byte => simp [literalOver, stringOver]
      | char c =>
          cases escaped with
          | true => simpa [literalOver, stringOver] using ih false (s.pass c rest)
          | false =>
              by_cases hc : c = '"'
              · simp [literalOver, stringOver, hc]
              · simpa [literalOver, stringOver, hc] using ih (c = '\\') (s.pass c rest)

theorem describes_nextString {c : Char} {rest : List Glyph} {s : Scanner}
    (htaken : s.taken = [.char c]) (hahead : s.ahead = rest) :
    (stringLexeme c rest).Describes (nextString s) := by
  have hwalk := stringOver_eq_literalOver rest false s
  rw [htaken] at hwalk
  rw [stringLexeme, nextString, hahead]
  cases hliteral : literalOver [.char c] false rest with
  | error fault =>
      rw [hliteral] at hwalk
      rcases hover : stringOver rest false s with ⟨found, behind⟩
      rw [hover] at hwalk
      subst hwalk
      exact ⟨rfl, rfl⟩
  | ok found =>
      rw [hliteral] at hwalk
      rcases hover : stringOver rest false s with ⟨stopped, behind⟩
      rw [hover] at hwalk
      obtain ⟨hnone, hliteral, hrest⟩ := hwalk
      subst hnone
      exact ⟨rfl, congrArg glyphBytes hliteral, rfl, hrest⟩

theorem describes_run (kind : Token.Kind) (p : Char → Bool) {c : Char}
    {rest : List Glyph} {s : Scanner}
    (htaken : s.taken = [.char c]) (hahead : s.ahead = rest) :
    (runLexeme kind p c rest).Describes (resume ((s.advanceWhile p).emit kind)) := by
  refine ⟨rfl, ?_, rfl, ?_⟩
  · change glyphBytes (s.advanceWhile p).taken.reverse = _
    rw [Scanner.advanceWhile_taken, htaken, hahead]
    simp
  · change (s.advanceWhile p).ahead = _
    rw [Scanner.advanceWhile_ahead, hahead]

theorem describes_nextSymbol {c : Char} {rest : List Glyph} {s : Scanner}
    (htaken : s.taken = [.char c]) (hahead : s.ahead = rest) :
    (symbolLexeme c rest).Describes (nextSymbol s) := by
  have htext : (s.advanceWhile isSymbolChar).text =
      glyphBytes (.char c :: rest.takeWhile (Glyph.satisfies isSymbolChar)) := by
    rw [Scanner.text, Scanner.advanceWhile_taken, htaken, hahead]
    simp
  rw [symbolLexeme, nextSymbol]
  simp only [htext]
  exact describes_run _ isSymbolChar htaken hahead

theorem describes_nextFrom {c : Char} {rest : List Glyph} {s : Scanner}
    (htaken : s.taken = [.char c]) (hahead : s.ahead = rest) :
    (lexemeFrom c rest).Describes (nextFrom c s) := by
  have hsingle : ∀ kind, Lexeme.Describes (.token kind [.char c] rest)
      (resume (s.emit kind)) := by
    intro kind
    refine ⟨rfl, ?_, rfl, hahead⟩
    change glyphBytes s.taken.reverse = _
    rw [htaken]
    rfl
  have hpeek : s.peekIs isDigit = rest.head?.any (Glyph.satisfies isDigit) := by
    rw [Scanner.peekIs, Scanner.peek, hahead]
  rw [lexemeFrom, nextFrom, hpeek]
  split_ifs
  · exact hsingle .openParen
  · exact hsingle .closeParen
  · exact hsingle .quote
  · exact describes_run .comment _ htaken hahead
  · exact describes_nextString htaken hahead
  · exact describes_run .int isDigit htaken hahead
  · exact describes_nextSymbol htaken hahead

/-- The next token and the lexer behind it are as the glyphs ahead say. -/
theorem describes_next {lexer : Lexer} (hfault : lexer.fault = none) :
    (lexeme lexer.scanner.ahead).Describes lexer.next := by
  have hahead : (lexer.scanner.advanceWhile isBlank).ignore.ahead =
      lexer.scanner.ahead.dropWhile (Glyph.satisfies isBlank) :=
    Scanner.advanceWhile_ahead lexer.scanner isBlank
  rw [lexeme, next, hfault, ← hahead]
  cases hrest : (lexer.scanner.advanceWhile isBlank).ignore.ahead with
  | nil => simp [hrest, Lexeme.Describes, resume, Scanner.emitText]
  | cons glyph rest =>
      cases glyph with
      | stray byte => simp [hrest, Lexeme.Describes, stop, Scanner.emitText]
      | char c =>
          simp only [hrest]
          exact describes_nextFrom rfl rfl

theorem literalOver_eq_ok {done text literal rest : List Glyph} {escaped : Bool}
    (hliteral : literalOver done escaped text = .ok (literal, rest)) :
    ∃ more, literal = done.reverse ++ more ∧ more ++ rest = text := by
  induction text generalizing done escaped with
  | nil => simp [literalOver] at hliteral
  | cons glyph text ih =>
      cases glyph with
      | stray byte => simp [literalOver] at hliteral
      | char c =>
          rw [literalOver] at hliteral
          split_ifs at hliteral with hescaped hquote
          · obtain ⟨more, rfl, rfl⟩ := ih hliteral
            exact ⟨.char c :: more, by simp, rfl⟩
          · simp only [Except.ok.injEq, Prod.mk.injEq] at hliteral
            obtain ⟨rfl, rfl⟩ := hliteral
            exact ⟨[.char c], by simp, rfl⟩
          · obtain ⟨more, rfl, rfl⟩ := ih hliteral
            exact ⟨.char c :: more, by simp, rfl⟩

/-- The characters that are tokens by themselves or start a literal or comment. -/
def isMark (c : Char) : Bool :=
  c == '(' || c == ')' || c == '\'' || c == ';' || c == '"'

/-- Whether `c` starts a number when `behind` follows it. -/
def startsInt (c : Char) (behind : List Glyph) : Bool :=
  isDigit c || c == '-' && behind.head?.any (Glyph.satisfies isDigit)

/-- The tokens that can start with `c` when `behind` follows it: the kind, what the
token takes and what it leaves. -/
inductive Starts (c : Char) (behind : List Glyph) :
    Token.Kind → (taken rest : List Glyph) → Prop
  | openParen (hc : c = '(') : Starts c behind .openParen [.char c] behind
  | closeParen (hc : c = ')') : Starts c behind .closeParen [.char c] behind
  | quote (hc : c = '\'') : Starts c behind .quote [.char c] behind
  | comment (hc : c = ';') :
      Starts c behind .comment (.char c :: behind.takeWhile (Glyph.satisfies (· != '\n')))
        (behind.dropWhile (Glyph.satisfies (· != '\n')))
  | string {literal rest : List Glyph} (hc : c = '"')
      (hliteral : literalOver [.char c] false behind = .ok (literal, rest)) :
      Starts c behind .string literal rest
  | int (hmark : isMark c = false) (hint : startsInt c behind = true) :
      Starts c behind .int (.char c :: behind.takeWhile (Glyph.satisfies isDigit))
        (behind.dropWhile (Glyph.satisfies isDigit))
  | dot (hmark : isMark c = false) (hint : startsInt c behind = false)
      (hdot : glyphBytes (.char c :: behind.takeWhile (Glyph.satisfies isSymbolChar)) =
        utf8 ".") :
      Starts c behind .dot (.char c :: behind.takeWhile (Glyph.satisfies isSymbolChar))
        (behind.dropWhile (Glyph.satisfies isSymbolChar))
  | symbol (hmark : isMark c = false) (hint : startsInt c behind = false)
      (hdot : glyphBytes (.char c :: behind.takeWhile (Glyph.satisfies isSymbolChar)) ≠
        utf8 ".") :
      Starts c behind .symbol (.char c :: behind.takeWhile (Glyph.satisfies isSymbolChar))
        (behind.dropWhile (Glyph.satisfies isSymbolChar))

theorem starts_of_lexemeFrom {c : Char} {behind taken rest : List Glyph}
    {kind : Token.Kind} (hlexeme : lexemeFrom c behind = .token kind taken rest) :
    Starts c behind kind taken rest := by
  rw [lexemeFrom] at hlexeme
  split_ifs at hlexeme with hopen hclose hquote hsemicolon hstring hint
  · cases hlexeme
    exact .openParen hopen
  · cases hlexeme
    exact .closeParen hclose
  · cases hlexeme
    exact .quote hquote
  · cases hlexeme
    exact .comment hsemicolon
  · rw [stringLexeme] at hlexeme
    split at hlexeme
    · next hliteral =>
        cases hlexeme
        exact .string hstring hliteral
    · cases hlexeme
  · have hmark : isMark c = false := by
      simp [isMark, hopen, hclose, hquote, hsemicolon, hstring]
    cases hlexeme
    exact .int hmark hint
  · have hmark : isMark c = false := by
      simp [isMark, hopen, hclose, hquote, hsemicolon, hstring]
    have hword : startsInt c behind = false := by simpa [startsInt] using hint
    simp only [symbolLexeme, runLexeme, Lexeme.token.injEq] at hlexeme
    obtain ⟨rfl, rfl, rfl⟩ := hlexeme
    split_ifs with hdot
    · exact .dot hmark hword hdot
    · exact .symbol hmark hword hdot

/-- A token takes its first character and then more, and leaves the rest. -/
theorem Starts.append {c : Char} {behind taken rest : List Glyph} {kind : Token.Kind}
    (hstarts : Starts c behind kind taken rest) :
    ∃ more, taken = .char c :: more ∧ more ++ rest = behind := by
  cases hstarts with
  | openParen => exact ⟨[], rfl, rfl⟩
  | closeParen => exact ⟨[], rfl, rfl⟩
  | quote => exact ⟨[], rfl, rfl⟩
  | comment => exact ⟨_, rfl, List.takeWhile_append_dropWhile⟩
  | string hc hliteral =>
      obtain ⟨more, rfl, rfl⟩ := literalOver_eq_ok hliteral
      exact ⟨more, rfl, rfl⟩
  | int => exact ⟨_, rfl, List.takeWhile_append_dropWhile⟩
  | dot => exact ⟨_, rfl, List.takeWhile_append_dropWhile⟩
  | symbol => exact ⟨_, rfl, List.takeWhile_append_dropWhile⟩

theorem Starts.isFinal {c : Char} {behind taken rest : List Glyph} {kind : Token.Kind}
    (hstarts : Starts c behind kind taken rest) : kind.isFinal = false := by
  cases hstarts <;> rfl

/-- A token stands right behind the white space of its text. -/
theorem starts_of_lexeme {text taken rest : List Glyph} {kind : Token.Kind}
    (hlexeme : lexeme text = .token kind taken rest) :
    ∃ c behind, text.dropWhile (Glyph.satisfies isBlank) = .char c :: behind ∧
      Starts c behind kind taken rest := by
  rw [lexeme] at hlexeme
  split at hlexeme
  · cases hlexeme
  · cases hlexeme
  · next c behind hdrop => exact ⟨c, behind, hdrop, starts_of_lexemeFrom hlexeme⟩

theorem dropWhile_of_ended {text : List Glyph} (hended : lexeme text = .ended) :
    text.dropWhile (Glyph.satisfies isBlank) = [] := by
  rw [lexeme] at hended
  split at hended
  · next hnil => exact hnil
  · cases hended
  · next c behind _ =>
      simp only [lexemeFrom, stringLexeme, symbolLexeme, runLexeme] at hended
      split_ifs at hended
      split at hended <;> cases hended

/-- The lexer stops behind white space at a stray byte, or at a quote that opens a literal. -/
theorem dropWhile_of_stopped {text : List Glyph} {fault : Fault}
    (hstopped : lexeme text = .stopped fault) :
    (∃ byte rest, text.dropWhile (Glyph.satisfies isBlank) = .stray byte :: rest ∧
        fault = .strayByte byte) ∨
      ∃ behind, text.dropWhile (Glyph.satisfies isBlank) = .char '"' :: behind ∧
        literalOver [.char '"'] false behind = .error fault := by
  rw [lexeme] at hstopped
  split at hstopped
  · cases hstopped
  · next byte rest hdrop =>
      cases hstopped
      exact .inl ⟨byte, rest, hdrop, rfl⟩
  · next c behind hdrop =>
      simp only [lexemeFrom, symbolLexeme, runLexeme] at hstopped
      split_ifs at hstopped with _ _ _ _ hquote
      subst hquote
      refine .inr ⟨behind, hdrop, ?_⟩
      rw [stringLexeme] at hstopped
      split at hstopped
      · cases hstopped
      · next hliteral =>
          cases hstopped
          exact hliteral

theorem lexeme_isFinal {text taken rest : List Glyph} {kind : Token.Kind}
    (hlexeme : lexeme text = .token kind taken rest) : kind.isFinal = false := by
  obtain ⟨c, behind, _, hstarts⟩ := starts_of_lexeme hlexeme
  exact hstarts.isFinal

/-- A token that does not end the stream is the lexeme of the text ahead. -/
theorem lexeme_of_next {lexer : Lexer} (hfault : lexer.fault = none)
    (hfinal : lexer.next.1.kind.isFinal = false) :
    ∃ taken, lexeme lexer.scanner.ahead =
        .token lexer.next.1.kind taken lexer.next.2.scanner.ahead ∧
      lexer.next.1.text = glyphBytes taken ∧ lexer.next.2.fault = none := by
  have hnext := describes_next hfault
  cases hlexeme : lexeme lexer.scanner.ahead with
  | ended =>
      rw [hlexeme] at hnext
      simp [hnext.1, Token.Kind.isFinal] at hfinal
  | stopped fault =>
      rw [hlexeme] at hnext
      simp [hnext.1, Token.Kind.isFinal] at hfinal
  | token kind taken rest =>
      rw [hlexeme] at hnext
      obtain ⟨hkind, htext, hclear, hrest⟩ := hnext
      exact ⟨taken, by rw [hkind, hrest], htext, hclear⟩

/-- The stream ends at the end of the text or at a token that cannot be read. -/
theorem lexeme_of_final {lexer : Lexer} (hfault : lexer.fault = none)
    (hfinal : lexer.next.1.kind.isFinal = true) :
    (lexeme lexer.scanner.ahead = .ended ∧ lexer.next.1.kind = .endOfInput ∧
        lexer.next.2.fault = none) ∨
      ∃ fault, lexeme lexer.scanner.ahead = .stopped fault ∧
        lexer.next.1.kind = .error ∧ lexer.next.2.fault = some fault := by
  have hnext := describes_next hfault
  cases hlexeme : lexeme lexer.scanner.ahead with
  | ended =>
      rw [hlexeme] at hnext
      exact .inl ⟨rfl, hnext⟩
  | stopped fault =>
      rw [hlexeme] at hnext
      exact .inr ⟨fault, rfl, hnext⟩
  | token kind taken rest =>
      rw [hlexeme] at hnext
      rw [hnext.1, lexeme_isFinal hlexeme] at hfinal
      cases hfinal

/-- Every token takes at least one glyph from the text. -/
theorem lexeme_suffix {text taken rest : List Glyph} {kind : Token.Kind}
    (hlexeme : lexeme text = .token kind taken rest) :
    rest <:+ text ∧ rest.length < text.length := by
  obtain ⟨c, behind, hdrop, hstarts⟩ := starts_of_lexeme hlexeme
  obtain ⟨more, _, rfl⟩ := hstarts.append
  have hsuffix := List.dropWhile_suffix (l := text) (Glyph.satisfies isBlank)
  have hle := hsuffix.length_le
  rw [hdrop] at hsuffix hle
  refine ⟨(List.suffix_append (Glyph.char c :: more) rest).trans hsuffix, ?_⟩
  simp only [List.length_cons, List.length_append] at hle
  omega

/-- The tokens are cut from the text one after the other, up to its end or to a fault. -/
inductive Cuts : (text : List Glyph) → (tokens : List Token) → (fault : Option Fault) → Prop
  | ended {text : List Glyph} (hlexeme : lexeme text = .ended) : Cuts text [] none
  | stopped {text : List Glyph} {fault : Fault} (hlexeme : lexeme text = .stopped fault) :
      Cuts text [] (some fault)
  | token {text taken rest : List Glyph} {token : Token} {tokens : List Token}
      {fault : Option Fault} (hlexeme : lexeme text = .token token.kind taken rest)
      (htext : token.text = glyphBytes taken) (hrest : Cuts rest tokens fault) :
      Cuts text (token :: tokens) fault

theorem Cuts.of_token {text taken rest : List Glyph} {kind : Token.Kind}
    {tokens : List Token} {fault : Option Fault} (hcuts : Cuts text tokens fault)
    (hlexeme : lexeme text = .token kind taken rest) :
    ∃ token more, tokens = token :: more ∧ token.kind = kind ∧
      token.text = glyphBytes taken ∧ Cuts rest more fault := by
  cases hcuts with
  | ended hlexeme' => simp [hlexeme'] at hlexeme
  | stopped hlexeme' => simp [hlexeme'] at hlexeme
  | token hlexeme' htext hrest =>
      simp only [hlexeme', Lexeme.token.injEq] at hlexeme
      obtain ⟨hkind, rfl, rfl⟩ := hlexeme
      exact ⟨_, _, rfl, hkind, htext, hrest⟩

theorem Cuts.of_ended {text : List Glyph} {tokens : List Token} {fault : Option Fault}
    (hcuts : Cuts text tokens fault) (hlexeme : lexeme text = .ended) :
    tokens = [] ∧ fault = none := by
  cases hcuts with
  | ended => exact ⟨rfl, rfl⟩
  | stopped hlexeme' => simp [hlexeme'] at hlexeme
  | token hlexeme' => simp [hlexeme'] at hlexeme

/-- The tokens of a text depend on nothing but its first lexeme. -/
theorem Cuts.congr {text text' : List Glyph} {tokens : List Token} {fault : Option Fault}
    (hcuts : Cuts text tokens fault) (hlexeme : lexeme text = lexeme text') :
    Cuts text' tokens fault := by
  cases hcuts with
  | ended hended => exact .ended (hlexeme ▸ hended)
  | stopped hstopped => exact .stopped (hlexeme ▸ hstopped)
  | token htoken htext hrest => exact .token (hlexeme ▸ htoken) htext hrest

/-- The tokens that repeated calls of `next` give, before the first that ends the
stream, and that one. -/
inductive Yields : Lexer → (tokens : List Token) → (last : Token) → Prop
  | last {lexer : Lexer} (hfinal : lexer.next.1.kind.isFinal = true) :
      Yields lexer [] lexer.next.1
  | more {lexer : Lexer} {tokens : List Token} {last : Token}
      (hfinal : lexer.next.1.kind.isFinal = false)
      (hrest : Yields lexer.next.2 tokens last) :
      Yields lexer (lexer.next.1 :: tokens) last

theorem Yields.unique {lexer : Lexer} {tokens tokens' : List Token} {last last' : Token}
    (hyields : Yields lexer tokens last) (hyields' : Yields lexer tokens' last') :
    tokens = tokens' ∧ last = last' := by
  induction hyields generalizing tokens' last' with
  | last hfinal =>
      cases hyields' with
      | last => exact ⟨rfl, rfl⟩
      | more hfinal' => exact absurd hfinal (by simp [hfinal'])
  | more hfinal _ ih =>
      cases hyields' with
      | last hfinal' => exact absurd hfinal' (by simp [hfinal])
      | more _ hrest' =>
          obtain ⟨rfl, rfl⟩ := ih hrest'
          exact ⟨rfl, rfl⟩

theorem Cuts.isFinal {text : List Glyph} {tokens : List Token} {fault : Option Fault}
    (hcuts : Cuts text tokens fault) : ∀ token ∈ tokens, token.kind.isFinal = false := by
  induction hcuts with
  | ended hlexeme => simp
  | stopped hlexeme => simp
  | token hlexeme htext hrest ih =>
      intro token hmem
      rcases List.mem_cons.mp hmem with rfl | hmem
      · exact lexeme_isFinal hlexeme
      · exact ih token hmem

/-- An ending reports a fault unless its token is the end of the input. -/
def Ending.Honest (ending : Ending) : Prop :=
  ending.fault = none ↔ ending.token.kind = .endOfInput

/-- With as much fuel as there are glyphs ahead, collecting tokens reaches the end of
the stream. -/
theorem tokensOnto_spec {fuel : Nat} (found : List Token) (lexer : Lexer)
    (hfault : lexer.fault = none) (hfuel : lexer.scanner.ahead.length ≤ fuel) :
    ∃ tokens, (tokensOnto fuel found lexer).1 = found.reverse ++ tokens ∧
      Yields lexer tokens (tokensOnto fuel found lexer).2.1.token ∧
      Cuts lexer.scanner.ahead tokens (tokensOnto fuel found lexer).2.1.fault ∧
      (tokensOnto fuel found lexer).2.1.Honest := by
  -- Every lexeme takes at least one glyph, so the fuel lasts as long as the text.
  induction fuel generalizing found lexer with
  | zero =>
      have hnil : lexer.scanner.ahead = [] := List.eq_nil_of_length_eq_zero (by omega)
      have hlexeme : lexeme lexer.scanner.ahead = .ended := by rw [hnil]; rfl
      have hnext := describes_next hfault
      rw [hlexeme] at hnext
      refine ⟨[], by simp [tokensOnto], .last ?_, ?_, ?_⟩
      · rw [hnext.1]
        rfl
      · simp only [tokensOnto, hnext.2]
        exact .ended hlexeme
      · simp [tokensOnto, Ending.Honest, hnext.1, hnext.2]
  | succ fuel ih =>
      have hnext := describes_next hfault
      cases hlexeme : lexeme lexer.scanner.ahead with
      | ended =>
          rw [hlexeme] at hnext
          have hfinal : lexer.next.1.kind.isFinal = true := by rw [hnext.1]; rfl
          refine ⟨[], ?_, ?_, ?_, ?_⟩ <;> simp only [tokensOnto, hfinal, ↓reduceIte]
          · simp
          · exact .last hfinal
          · rw [hnext.2]
            exact .ended hlexeme
          · simp [Ending.Honest, hnext.1, hnext.2]
      | stopped fault =>
          rw [hlexeme] at hnext
          have hfinal : lexer.next.1.kind.isFinal = true := by rw [hnext.1]; rfl
          refine ⟨[], ?_, ?_, ?_, ?_⟩ <;> simp only [tokensOnto, hfinal, ↓reduceIte]
          · simp
          · exact .last hfinal
          · rw [hnext.2]
            exact .stopped hlexeme
          · simp [Ending.Honest, hnext.1, hnext.2]
      | token kind taken rest =>
          rw [hlexeme] at hnext
          obtain ⟨hkind, htext, hclear, hrest⟩ := hnext
          have hfinal : lexer.next.1.kind.isFinal = false := by
            rw [hkind]
            exact lexeme_isFinal hlexeme
          have hshorter := (lexeme_suffix hlexeme).2
          obtain ⟨tokens, heq, hyields, hcuts, hhonest⟩ :=
            ih (lexer.next.1 :: found) lexer.next.2 hclear (by rw [hrest]; omega)
          have hstep : tokensOnto (fuel + 1) found lexer =
              tokensOnto fuel (lexer.next.1 :: found) lexer.next.2 := by
            simp [tokensOnto, hfinal]
          rw [hstep]
          refine ⟨lexer.next.1 :: tokens, by simp [heq], .more hfinal hyields, ?_, hhonest⟩
          rw [hrest] at hcuts
          rw [← hkind] at hlexeme
          exact .token hlexeme htext hcuts

/-- The tokens of a text are what repeated calls of `next` give, and they are cut from
its glyphs. -/
theorem tokens_ofBytes (file text : Bytes) :
    Yields (.ofBytes file text) (ofBytes file text).tokens.1
        (ofBytes file text).tokens.2.1.token ∧
      Cuts (glyphs text) (ofBytes file text).tokens.1
        (ofBytes file text).tokens.2.1.fault ∧
      (ofBytes file text).tokens.2.1.Honest := by
  obtain ⟨tokens, heq, hspec⟩ :=
    tokensOnto_spec [] (ofBytes file text) rfl (Nat.le_refl _)
  rw [List.reverse_nil, List.nil_append] at heq
  change (ofBytes file text).tokens.1 = tokens at heq
  rw [heq]
  exact hspec

end Lexer

end MiniLisp
