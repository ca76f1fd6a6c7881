import MiniLisp.Proofs.Encoding
import MiniLisp.Proofs.Lexing

/-!
Lexing with a later line.  A line feed ends every token but a string literal, so the
tokens of a text are the first tokens of every longer text that goes on with another
line, with the same places.  What the last of them turns into depends on how the
text ends: behind white space the stream goes on, a stray byte stays one, and a string
literal that was cut off still starts where it did.
-/

namespace MiniLisp

namespace Scanner

/-- The scanner when another line follows the text ahead. -/
def withLine (s : Scanner) (later : List Glyph) : Scanner :=
  { s with ahead := s.ahead ++ .char '\n' :: later }

theorem withLine_ahead (s : Scanner) (later : List Glyph) :
    (s.withLine later).ahead = s.ahead ++ .char '\n' :: later := rfl

theorem withLine_pass (s : Scanner) (c : Char) (rest later : List Glyph) :
    (s.withLine later).pass c (rest ++ .char '\n' :: later) =
      (s.pass c rest).withLine later := rfl

/-- A run ends before the line does, if the line feed is not part of it or something
else ends it. -/
theorem advanceOver_withLine (p : Char → Bool) (later : List Glyph) {ahead : List Glyph}
    {s : Scanner} (hahead : s.ahead = ahead)
    (hend : ahead.dropWhile (Glyph.satisfies p) = [] → p '\n' = false) :
    advanceOver p (ahead ++ .char '\n' :: later) (s.withLine later) =
      (advanceOver p ahead s).withLine later := by
  induction ahead generalizing s with
  | nil => simp [advanceOver, hend rfl]
  | cons glyph ahead ih =>
      rcases glyph with c | byte
      · by_cases hc : p c = true
        · have hrest : ahead.dropWhile (Glyph.satisfies p) = [] → p '\n' = false := by
            simpa [Glyph.satisfies, hc] using hend
          simp only [List.cons_append, advanceOver, hc, ↓reduceIte, withLine_pass]
          exact ih (s := s.pass c ahead) rfl hrest
        · simp [advanceOver, hc]
      · rfl

theorem advanceWhile_withLine (s : Scanner) {p : Char → Bool} (hline : p '\n' = false)
    (later : List Glyph) :
    (s.withLine later).advanceWhile p = (s.advanceWhile p).withLine later :=
  advanceOver_withLine p later rfl fun _ => hline

theorem peekIs_withLine (s : Scanner) {p : Char → Bool} (hline : p '\n' = false)
    (later : List Glyph) : (s.withLine later).peekIs p = s.peekIs p := by
  obtain ⟨file, start, here, taken, ahead, last⟩ := s
  cases ahead with
  | nil => simp [peekIs, peek, withLine, Glyph.satisfies, hline]
  | cons glyph ahead => rfl

end Scanner

namespace Lexer

def withLine (lexer : Lexer) (later : List Glyph) : Lexer :=
  ⟨lexer.scanner.withLine later, lexer.fault⟩

/-- What a lexer does when another line follows: the same, as far as it went. -/
def lineAfter (later : List Glyph) (cut : Token × Lexer) : Token × Lexer :=
  (cut.1, cut.2.withLine later)

theorem ofBytes_append_line (file text later : Bytes) :
    ofBytes file (text ++ 10 :: later) = (ofBytes file text).withLine (glyphs later) := by
  simp only [ofBytes, withLine, Scanner.ofBytes, Scanner.withLine, glyphs_append_line]

/-! ### One token -/

theorem stringOver_withLine (later : List Glyph) {ahead : List Glyph} {escaped : Bool}
    {s : Scanner} (hended : (stringOver ahead escaped s).1 ≠ some .unterminatedString) :
    stringOver (ahead ++ .char '\n' :: later) escaped (s.withLine later) =
      ((stringOver ahead escaped s).1, (stringOver ahead escaped s).2.withLine later) := by
  induction ahead generalizing escaped s with
  | nil => simp [stringOver] at hended
  | cons glyph ahead ih =>
      rcases glyph with c | byte
      · simp only [List.cons_append, stringOver, Scanner.withLine_pass] at hended ⊢
        split_ifs at hended ⊢
        · exact ih hended
        · rfl
        · exact ih hended
      · rfl

/-- The walk along a literal does not move the place where it started. -/
theorem startLocation_stringOver (ahead : List Glyph) (escaped : Bool) (s : Scanner) :
    (stringOver ahead escaped s).2.startLocation = s.startLocation := by
  induction ahead generalizing escaped s with
  | nil => rfl
  | cons glyph ahead ih =>
      rcases glyph with c | byte
      · rw [stringOver]
        split_ifs
        · exact ih false (s.pass c ahead)
        · rfl
        · exact ih (c = '\\') (s.pass c ahead)
      · rfl

theorem fault_nextString (s : Scanner) :
    (nextString s).2.fault = (stringOver s.ahead false s).1 := by
  rw [nextString]
  rcases stringOver s.ahead false s with ⟨_ | fault, s'⟩ <;> rfl

/-- A string literal, whether it ends or not, starts at its quote. -/
theorem nextString_spec (s : Scanner) :
    (nextString s).1.source = s.startLocation ∧
      ((nextString s).1.kind = .string ∧ (nextString s).2.fault = none ∨
        (nextString s).1.kind = .error ∧ (nextString s).2.fault ≠ none) := by
  have hstart := startLocation_stringOver s.ahead false s
  rw [nextString]
  generalize stringOver s.ahead false s = walk at hstart ⊢
  rcases walk with ⟨_ | fault, s'⟩
  · exact ⟨hstart, .inl ⟨rfl, rfl⟩⟩
  · exact ⟨hstart, .inr ⟨rfl, Option.some_ne_none fault⟩⟩

theorem nextString_withLine (later : List Glyph) {s : Scanner}
    (hended : (nextString s).2.fault ≠ some .unterminatedString) :
    nextString (s.withLine later) = lineAfter later (nextString s) := by
  rw [fault_nextString] at hended
  rw [nextString, nextString, s.withLine_ahead, stringOver_withLine later hended]
  rcases stringOver s.ahead false s with ⟨_ | fault, s'⟩ <;> rfl

theorem nextFrom_withLine (later : List Glyph) {c : Char} {s : Scanner}
    (hended : (nextFrom c s).2.fault ≠ some .unterminatedString) :
    nextFrom c (s.withLine later) = lineAfter later (nextFrom c s) := by
  rw [nextFrom] at hended
  rw [nextFrom, nextFrom, s.peekIs_withLine rfl]
  split_ifs at hended ⊢
  · rfl
  · rfl
  · rfl
  · rw [s.advanceWhile_withLine rfl]
    rfl
  · exact nextString_withLine later hended
  · rw [nextNumber, nextNumber, s.advanceWhile_withLine rfl]
    rfl
  · rw [nextSymbol, nextSymbol, s.advanceWhile_withLine rfl]
    rfl

/-- Only a string literal can stop the lexer behind its first character. -/
theorem eq_quote_of_fault {c : Char} {s : Scanner} (hfault : (nextFrom c s).2.fault ≠ none) :
    c = '"' := by
  rw [nextFrom] at hfault
  split_ifs at hfault with hopen hclose hquote hcomment hstring
  · exact absurd rfl hfault
  · exact absurd rfl hfault
  · exact absurd rfl hfault
  · exact absurd rfl hfault
  · exact hstring
  · exact absurd rfl hfault
  · exact absurd rfl hfault

/-- The scanner at the next token, behind white space. -/
def front (lexer : Lexer) : Scanner :=
  (lexer.scanner.advanceWhile isBlank).ignore

theorem front_ahead (lexer : Lexer) :
    lexer.front.ahead = lexer.scanner.ahead.dropWhile (Glyph.satisfies isBlank) :=
  lexer.scanner.advanceWhile_ahead isBlank

theorem front_withLine {lexer : Lexer} (hmore : lexer.front.ahead ≠ []) (later : List Glyph) :
    (lexer.withLine later).front = lexer.front.withLine later := by
  rw [front_ahead] at hmore
  have hskip := Scanner.advanceOver_withLine isBlank later (s := lexer.scanner) rfl
    fun hnil => absurd hnil hmore
  exact congrArg Scanner.ignore hskip

/-- The next token, by what stands behind the white space. -/
theorem next_eq_front {lexer : Lexer} (hfault : lexer.fault = none) :
    lexer.next =
      match lexer.front.ahead with
      | [] => resume (lexer.front.emitText .endOfInput [])
      | .stray byte :: _ => stop lexer.front (.strayByte byte)
      | .char c :: rest => nextFrom c (lexer.front.pass c rest) := by
  rw [next, hfault]
  rfl

/-- A token that is neither the end of the text nor a literal that was cut off is the
same when another line follows. -/
theorem next_withLine {lexer : Lexer} (hfault : lexer.fault = none)
    (hkind : lexer.next.1.kind ≠ .endOfInput)
    (hended : lexer.next.2.fault ≠ some .unterminatedString) (later : List Glyph) :
    (lexer.withLine later).next = lineAfter later lexer.next := by
  have hfault' : (lexer.withLine later).fault = none := hfault
  rw [next_eq_front hfault] at hkind hended
  rw [next_eq_front hfault, next_eq_front hfault']
  rcases hfront : lexer.front.ahead with _ | ⟨c | byte, rest⟩
  · simp only [hfront] at hkind
    exact absurd rfl hkind
  · have hmore : lexer.front.ahead ≠ [] := by simp [hfront]
    simp only [hfront] at hended
    simp only [front_withLine hmore, Scanner.withLine_ahead, hfront, List.cons_append]
    exact nextFrom_withLine later hended
  · have hmore : lexer.front.ahead ≠ [] := by simp [hfront]
    simp only [front_withLine hmore, Scanner.withLine_ahead, hfront, List.cons_append]
    rfl

/-- A literal that was cut off is, when another line follows, a literal or a fault at
the same place. -/
theorem next_withLine_string {lexer : Lexer} (hfault : lexer.fault = none)
    (hopen : lexer.next.2.fault = some .unterminatedString) (later : List Glyph) :
    (lexer.withLine later).next.1.source = lexer.next.1.source ∧
      ((lexer.withLine later).next.1.kind = .string ∧
          (lexer.withLine later).next.2.fault = none ∨
        (lexer.withLine later).next.1.kind = .error ∧
          (lexer.withLine later).next.2.fault ≠ none) := by
  have hfault' : (lexer.withLine later).fault = none := hfault
  rw [next_eq_front hfault] at hopen ⊢
  rw [next_eq_front hfault']
  rcases hfront : lexer.front.ahead with _ | ⟨c | byte, rest⟩
  · simp only [hfront] at hopen
    cases hopen
  · have hmore : lexer.front.ahead ≠ [] := by simp [hfront]
    simp only [hfront] at hopen
    have hstopped : (nextFrom c (lexer.front.pass c rest)).2.fault ≠ none := by simp [hopen]
    have hquote : c = '"' := eq_quote_of_fault hstopped
    subst hquote
    simp only [front_withLine hmore, Scanner.withLine_ahead, hfront, List.cons_append]
    obtain ⟨hsource, hnext⟩ := nextString_spec ((lexer.front.pass '"' rest).withLine later)
    obtain ⟨hsource', _⟩ := nextString_spec (lexer.front.pass '"' rest)
    exact ⟨hsource.trans hsource'.symm, hnext⟩
  · simp only [hfront] at hopen
    cases hopen

/-! ### The stream -/

theorem tokens_of_final {lexer : Lexer} (hfinal : lexer.next.1.kind.isFinal = true) :
    lexer.tokens = ([], ⟨lexer.next.1, lexer.next.2.fault⟩, lexer.next.2) := by
  rw [tokens]
  cases lexer.scanner.ahead.length with
  | zero => rfl
  | succ fuel => simp [tokensOnto, hfinal]

/-- A token that does not end the stream takes from the text ahead. -/
theorem next_shortens {lexer : Lexer} (hfault : lexer.fault = none)
    (hfinal : lexer.next.1.kind.isFinal = false) :
    lexer.next.2.fault = none ∧
      lexer.next.2.scanner.ahead.length < lexer.scanner.ahead.length := by
  obtain ⟨taken, hlexeme, _, hclear⟩ := lexeme_of_next hfault hfinal
  exact ⟨hclear, (lexeme_suffix hlexeme).2⟩

theorem tokensOnto_found (fuel : Nat) (found : List Token) (lexer : Lexer) :
    tokensOnto fuel found lexer =
      (found.reverse ++ (tokensOnto fuel [] lexer).1, (tokensOnto fuel [] lexer).2) := by
  induction fuel generalizing found lexer with
  | zero => simp [tokensOnto]
  | succ fuel ih =>
      cases hfinal : lexer.next.1.kind.isFinal with
      | true => simp [tokensOnto, hfinal]
      | false =>
          simp only [tokensOnto, hfinal, Bool.false_eq_true, ↓reduceIte]
          rw [ih, ih [lexer.next.1]]
          simp

/-- More fuel than there are glyphs ahead makes no difference. -/
theorem tokensOnto_fuel {fuel fuel' : Nat} {lexer : Lexer} (hfault : lexer.fault = none)
    (hfuel : lexer.scanner.ahead.length ≤ fuel) (hfuel' : lexer.scanner.ahead.length ≤ fuel')
    (found : List Token) : tokensOnto fuel found lexer = tokensOnto fuel' found lexer := by
  induction fuel generalizing fuel' lexer found with
  | zero =>
      cases hfinal : lexer.next.1.kind.isFinal with
      | true => cases fuel' <;> simp [tokensOnto, hfinal]
      | false =>
          have hshorter := (next_shortens hfault hfinal).2
          omega
  | succ fuel ih =>
      cases hfinal : lexer.next.1.kind.isFinal with
      | true => cases fuel' <;> simp [tokensOnto, hfinal]
      | false =>
          obtain ⟨hclear, hshorter⟩ := next_shortens hfault hfinal
          cases fuel' with
          | zero => omega
          | succ fuel' =>
              simp only [tokensOnto, hfinal, Bool.false_eq_true, ↓reduceIte]
              exact ih hclear (by omega) (by omega) (lexer.next.1 :: found)

theorem tokens_of_more {lexer : Lexer} (hfault : lexer.fault = none)
    (hfinal : lexer.next.1.kind.isFinal = false) :
    lexer.tokens = (lexer.next.1 :: lexer.next.2.tokens.1, lexer.next.2.tokens.2) := by
  obtain ⟨hclear, hshorter⟩ := next_shortens hfault hfinal
  obtain ⟨fuel, hfuel⟩ : ∃ fuel, lexer.scanner.ahead.length = fuel + 1 :=
    ⟨lexer.scanner.ahead.length - 1, by omega⟩
  have hstep : lexer.tokens = tokensOnto fuel [lexer.next.1] lexer.next.2 := by
    simp [tokens, hfuel, tokensOnto, hfinal]
  rw [hstep, tokensOnto_fuel hclear (by omega) (Nat.le_refl _), tokensOnto_found]
  rfl

theorem cuts_tokens {lexer : Lexer} (hfault : lexer.fault = none) :
    Cuts lexer.scanner.ahead lexer.tokens.1 lexer.tokens.2.1.fault := by
  obtain ⟨tokens, heq, _, hcuts, _⟩ := tokensOnto_spec [] lexer hfault (Nat.le_refl _)
  change lexer.tokens.1 = tokens at heq
  rw [heq]
  exact hcuts

/-- When another line follows, the stream goes on from where it ended. -/
theorem tokens_withLine {lexer : Lexer} (hfault : lexer.fault = none) :
    ∃ final : Lexer, final.fault = none ∧ final.next.1.kind.isFinal = true ∧
      lexer.tokens.2.1 = ⟨final.next.1, final.next.2.fault⟩ ∧
      ∀ later, (lexer.withLine later).tokens.1 =
          lexer.tokens.1 ++ (final.withLine later).tokens.1 ∧
        (lexer.withLine later).tokens.2.1 = (final.withLine later).tokens.2.1 := by
  by_cases hfinal : lexer.next.1.kind.isFinal = true
  · refine ⟨lexer, hfault, hfinal, ?_, fun later => ?_⟩
    · rw [tokens_of_final hfinal]
    · rw [tokens_of_final hfinal]
      exact ⟨rfl, rfl⟩
  · have hfinal : lexer.next.1.kind.isFinal = false := by simpa using hfinal
    obtain ⟨hclear, hshorter⟩ := next_shortens hfault hfinal
    obtain ⟨final, hfault', hfinal', hending, hlater⟩ := tokens_withLine hclear
    rw [tokens_of_more hfault hfinal]
    refine ⟨final, hfault', hfinal', hending, fun later => ?_⟩
    have hnext : (lexer.withLine later).next = lineAfter later lexer.next := by
      refine next_withLine hfault ?_ (by simp [hclear]) later
      intro hkind
      simp [hkind, Token.Kind.isFinal] at hfinal
    have hmore : (lexer.withLine later).next.1.kind.isFinal = false := by
      rw [hnext]
      exact hfinal
    have hclear' : (lexer.withLine later).fault = none := hfault
    rw [tokens_of_more hclear' hmore, hnext]
    obtain ⟨htokens, hending'⟩ := hlater later
    exact ⟨congrArg (lexer.next.1 :: ·) htokens, hending'⟩
termination_by lexer.scanner.ahead.length

end Lexer

end MiniLisp
