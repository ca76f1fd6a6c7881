import MiniLisp.Proofs.Completable
import MiniLisp.Proofs.Lines
import MiniLisp.Proofs.RoundTrip

/-!
The walk that completes a text, beside the token reader.  At every token the walk has
counted the lists that are open and knows whether a quote or dot waits for an expression,
provided that it splits the text where the lexer does.  It does so but for one case: for
the walk, a number goes on into a comment or dot that follows it directly.
-/

namespace MiniLisp

/-! ### Numbers that run on -/

namespace Lexer

/-- Whether a text starts with a comment, or with a dot that stands alone. -/
def runsOn : List Glyph → Bool
  | [] => false
  | glyph :: rest =>
      glyph.isChar ';' ||
        glyph.isChar '.' && !rest.head?.any (Glyph.satisfies isSymbolChar)

/-- No number of the text runs into a comment or into a dot that stands alone. -/
inductive Spaced : (text : List Glyph) → Prop
  | ended {text : List Glyph} (hlexeme : lexeme text = .ended) : Spaced text
  | stopped {text : List Glyph} {fault : Fault} (hlexeme : lexeme text = .stopped fault) :
      Spaced text
  | token {text taken rest : List Glyph} {kind : Token.Kind}
      (hlexeme : lexeme text = .token kind taken rest)
      (hnumber : kind = .int → runsOn rest = false) (hrest : Spaced rest) : Spaced text

theorem Spaced.of_token {text taken rest : List Glyph} {kind : Token.Kind}
    (hspaced : Spaced text) (hlexeme : lexeme text = .token kind taken rest) :
    (kind = .int → runsOn rest = false) ∧ Spaced rest := by
  cases hspaced with
  | ended hlexeme' => simp [hlexeme'] at hlexeme
  | stopped hlexeme' => simp [hlexeme'] at hlexeme
  | token hlexeme' hnumber hrest =>
      rw [hlexeme'] at hlexeme
      cases hlexeme
      exact ⟨hnumber, hrest⟩

/-- Behind a symbol there is no comment and no dot. -/
theorem runsOn_dropWhile (text : List Glyph) :
    runsOn (text.dropWhile (Glyph.satisfies isSymbolChar)) = false := by
  cases hdrop : text.dropWhile (Glyph.satisfies isSymbolChar) with
  | nil => rfl
  | cons glyph rest =>
      have hcomment : glyph.isChar ';' = false := isChar_of_dropWhile hdrop (by decide)
      have hdot : glyph.isChar '.' = false := isChar_of_dropWhile hdrop (by decide)
      simp [runsOn, hcomment, hdot]

end Lexer

/-! ### What a token does to the open forms -/

namespace Nest

/-- How a token that does not end the expression changes the open forms: the number of
lists, and whether an expression is wanting. -/
def Turns (kind : Token.Kind) (forms after : List OpenForm) : Prop :=
  match kind with
  | .comment => after = forms
  | .openParen => lists after = lists forms + 1 ∧ Settled after
  | .closeParen => lists after + 1 = lists forms ∧ Settled after
  | .quote => lists after = lists forms ∧ ¬Settled after
  | .dot => lists after = lists forms ∧ ¬Settled after
  | _ => lists after = lists forms ∧ Settled after

theorem lists_of_supply {depth : Nat} {forms : List OpenForm} {value : Value} {after : Nest}
    (hsupply : supply depth forms value = .more after) :
    lists after.forms = lists forms ∧ Settled after.forms := by
  have hclosable := closable_supply depth forms value
  rw [hsupply] at hclosable
  exact ⟨hclosable.2, hclosable.1⟩

theorem enter_eq_more_iff {limit : Int} {nest after : Nest} {form : OpenForm} {token : Token}
    (henter : nest.enter limit form token = .more after) : after.forms = form :: nest.forms := by
  rw [enter] at henter
  split_ifs at henter
  cases henter
  rfl

theorem turns_expression {limit : Int} {nest after : Nest} {token : Token}
    (hstep : nest.expression limit token = .more after) :
    Turns token.kind nest.forms after.forms := by
  rw [expression] at hstep
  split at hstep
  · next hkind =>
      cases hstep
      rw [hkind]
      rfl
  · next hkind =>
      rw [hkind]
      split at hstep
      · exact lists_of_supply hstep
      · cases hstep
  · next hkind =>
      rw [hkind]
      split at hstep
      · exact lists_of_supply hstep
      · cases hstep
  · next hkind =>
      rw [hkind]
      exact lists_of_supply hstep
  · next hkind =>
      rw [hkind, enter_eq_more_iff hstep]
      exact ⟨rfl, id⟩
  · next hkind =>
      rw [hkind, enter_eq_more_iff hstep]
      exact ⟨rfl, trivial⟩
  · cases hstep
  · cases hstep

theorem turns_step {limit : Int} {nest after : Nest} {token : Token}
    (hstep : nest.step limit token = .more after) :
    Turns token.kind nest.forms after.forms := by
  rw [step] at hstep
  split at hstep
  · next hforms hkind =>
      rw [hforms, hkind]
      obtain ⟨hlists, hsettled⟩ := lists_of_supply hstep
      exact ⟨congrArg (· + 1) hlists, hsettled⟩
  · next hforms hkind =>
      split_ifs at hstep
      cases hstep
      rw [hforms, hkind]
      exact ⟨rfl, id⟩
  · cases hstep
  · next hforms hkind =>
      rw [hforms, hkind]
      obtain ⟨hlists, hsettled⟩ := lists_of_supply hstep
      exact ⟨congrArg (· + 1) hlists, hsettled⟩
  · next hkind =>
      cases hstep
      rw [hkind]
      rfl
  · cases hstep
  · exact turns_expression hstep

end Nest

/-! ### The walk over tokens -/

namespace Completion

@[simp]
theorem depth_endWord (state : State) : state.endWord.depth = state.depth := by
  rw [State.endWord]
  split <;> rfl

@[simp]
theorem word_endWord (state : State) : state.endWord.word = .none := by
  rw [State.endWord]
  split
  · next hword => exact hword
  · rfl
  · rfl

theorem endWord_of_none {state : State} (hword : state.word = .none) : state.endWord = state := by
  rw [State.endWord, hword]

@[simp]
theorem endWord_endWord (state : State) : state.endWord.endWord = state.endWord :=
  endWord_of_none (word_endWord state)

def openBehind (state : State) (text : List Glyph) : State :=
  (text.foldl State.step state).endWord

/-- The walk stands between two tokens.  A comment may go on to the end of its line; a word
may go on as well, but the lexer splits off nothing from it that the walk does not. -/
inductive Between (state : State) (text : List Glyph) : Prop
  | code (hmode : state.mode = .code)
      (hword : state.word ≠ .none → Lexer.runsOn text = false)
  | comment (hmode : state.mode = .comment) (hword : state.word = .none)
      (hline : ∀ glyph ∈ text.head?, glyph = .char '\n')

/-- The walk has found what is open for the reader. -/
structure Tracks (forms : List OpenForm) (state : State) (text : List Glyph) : Prop where
  between : Between state text
  depth : state.depth = Nest.lists forms
  pending : state.endWord.pending = true ↔ ¬Nest.Settled forms

theorem tracks_top (text : List Glyph) : Tracks [] .top text :=
  ⟨.code rfl fun hword => absurd rfl hword, rfl, by simp [State.top, State.endWord, Nest.Settled]⟩

theorem Between.mode_ne {state : State} {text : List Glyph} (hbetween : Between state text)
    (escaped : Bool) : state.endWord.mode ≠ .string escaped := by
  rw [mode_endWord]
  cases hbetween with
  | code hmode => simp [hmode]
  | comment hmode => simp [hmode]

/-- White space ends a word. -/
theorem step_blank {state : State} {c : Char} (hmode : state.mode = .code)
    (hplain : PlainChar c) (hblank : isBlank c = true) :
    state.step (.char c) = state.endWord := by
  rcases hplain hblank with rfl | rfl | rfl | rfl <;>
    simp [State.step, hmode, Glyph.endsWord, Glyph.isAsciiBlank, isAsciiBlank, State.delimit,
      Glyph.isChar, Glyph.satisfies]

theorem Tracks.blank {forms : List OpenForm} {state : State} {c : Char} {text : List Glyph}
    (htracks : Tracks forms state (.char c :: text)) (hplain : PlainChar c)
    (hblank : isBlank c = true) : Tracks forms (state.step (.char c)) text := by
  obtain ⟨hbetween, hdepth, hpending⟩ := htracks
  cases hbetween with
  | code hmode =>
      rw [step_blank hmode hplain hblank]
      refine ⟨.code (by rw [mode_endWord, hmode]) fun hword => ?_, ?_, ?_⟩
      · exact absurd (word_endWord state) hword
      · rw [depth_endWord, hdepth]
      · rw [endWord_endWord, hpending]
  | comment hmode hword hline =>
      obtain rfl : c = '\n' := by simpa using hline (.char c) rfl
      rw [endWord_of_none hword] at hpending
      have hstep : state.step (.char '\n') = { state with mode := .code } := by
        simp [State.step, hmode, Glyph.isChar, Glyph.satisfies]
      rw [hstep]
      refine ⟨.code rfl fun hother => absurd hword hother, hdepth, ?_⟩
      rwa [@endWord_of_none { state with mode := .code } hword]

theorem Tracks.blanks {forms : List OpenForm} {state : State} {text : List Glyph}
    (htracks : Tracks forms state text) (hplain : Plain text) :
    Tracks forms ((text.takeWhile (Glyph.satisfies isBlank)).foldl State.step state)
      (text.dropWhile (Glyph.satisfies isBlank)) := by
  induction text generalizing state with
  | nil => exact htracks
  | cons glyph text ih =>
      obtain ⟨c, rfl, hchar⟩ := hplain glyph (by simp)
      cases hblank : isBlank c with
      | true =>
          simpa [Glyph.satisfies, hblank] using
            ih (htracks.blank hchar hblank) hplain.tail
      | false => simpa [Glyph.satisfies, hblank] using htracks

/-- In front of a character that is no white space, the walk is outside of comments. -/
theorem Between.mode_code {state : State} {c : Char} {text : List Glyph}
    (hbetween : Between state (.char c :: text)) (hblank : isBlank c = false) :
    state.mode = .code := by
  cases hbetween with
  | code hmode => exact hmode
  | comment _ _ hline =>
      obtain rfl : c = '\n' := by simpa using hline (.char c) rfl
      cases hblank

/-- Inside a word every character of a symbol continues it. -/
theorem foldl_word {state : State} {word : List Glyph} (hmode : state.mode = .code)
    (hword : state.word = .some) (hends : ∀ glyph ∈ word, glyph.endsWord = false) :
    word.foldl State.step state = state := by
  induction word with
  | nil => rfl
  | cons glyph word ih =>
      have hstep : state.step glyph = state := by
        obtain ⟨mode, depth, pending, _⟩ := state
        cases hmode
        cases hword
        simp [State.step, hends glyph (by simp), State.extendWord]
      rw [List.foldl_cons, hstep]
      exact ih fun later hmem => hends later (by simp [hmem])

/-- A word that is not a single dot, or that goes on with one. -/
theorem foldl_symbol {state : State} {first : Glyph} {word : List Glyph}
    (hmode : state.mode = .code) (hcomment : first.isChar ';' = false)
    (hends : ∀ glyph ∈ first :: word, glyph.endsWord = false)
    (hdot : first.isChar '.' = true → state.word = .none → word ≠ []) :
    (first :: word).foldl State.step state = { state with word := .some } := by
  obtain ⟨mode, depth, pending, before⟩ := state
  cases hmode
  have hlater : ∀ glyph ∈ word, glyph.endsWord = false :=
    fun glyph hmem => hends glyph (by simp [hmem])
  have hstep : ∀ glyph : Glyph, glyph.endsWord = false →
      State.step ⟨.code, depth, pending, .some⟩ glyph = ⟨.code, depth, pending, .some⟩ :=
    fun glyph hglyph => by simp [State.step, hglyph, State.extendWord]
  have hfirst : State.step ⟨.code, depth, pending, before⟩ first =
      State.extendWord ⟨.code, depth, pending, before⟩ first := by
    simp [State.step, hcomment, hends first (by simp)]
  rw [List.foldl_cons, hfirst]
  by_cases hsingle : first.isChar '.' = true ∧ before = .none
  · obtain ⟨hchar, rfl⟩ := hsingle
    obtain ⟨second, word, rfl⟩ := List.exists_cons_of_ne_nil (hdot hchar rfl)
    have hsecond : State.step ⟨.code, depth, pending, .dot⟩ second =
        ⟨.code, depth, pending, .some⟩ := by
      simp [State.step, hlater second (by simp), State.extendWord]
    simp only [State.extendWord, hchar, ↓reduceIte, List.foldl_cons, hsecond]
    exact foldl_word rfl rfl fun glyph hmem => hlater glyph (by simp [hmem])
  · have hextend : State.extendWord ⟨.code, depth, pending, before⟩ first =
        ⟨.code, depth, pending, .some⟩ := by
      cases before with
      | none =>
          have hchar : first.isChar '.' = false := by simpa using hsingle
          simp [State.extendWord, hchar]
      | dot => rfl
      | some => rfl
    rw [hextend]
    exact foldl_word rfl rfl hlater

/-- The walk leaves a literal where the lexer does. -/
theorem foldl_literal {done text literal rest : List Glyph} {escaped : Bool} {state : State}
    (hliteral : Lexer.literalOver done escaped text = .ok (literal, rest))
    (hmode : state.mode = .string escaped) :
    ∃ more, literal = done.reverse ++ more ∧
      more.foldl State.step state = { state with mode := .code } := by
  induction text generalizing done escaped state with
  | nil => cases hliteral
  | cons glyph text ih =>
      cases glyph with
      | stray byte => cases hliteral
      | char c =>
          obtain ⟨mode, depth, pending, word⟩ := state
          cases hmode
          rw [Lexer.literalOver] at hliteral
          split_ifs at hliteral with hescaped hquote
          · subst hescaped
            obtain ⟨more, rfl, hfold⟩ :=
              @ih _ _ ⟨.string false, depth, pending, word⟩ hliteral rfl
            exact ⟨.char c :: more, by simp, hfold⟩
          · cases hliteral
            subst hquote
            refine ⟨[.char '"'], by simp, ?_⟩
            simp [State.step, hescaped, Glyph.isChar, Glyph.satisfies]
          · obtain ⟨more, rfl, hfold⟩ :=
              @ih _ _ ⟨.string (c = '\\'), depth, pending, word⟩ hliteral rfl
            refine ⟨.char c :: more, by simp, ?_⟩
            rw [List.foldl_cons, ← hfold]
            simp [State.step, hescaped, Glyph.isChar, Glyph.satisfies, hquote, beq_eq_decide]

/-- The walk knows whether the last character of an open literal is a bare backslash. -/
theorem foldl_open_literal {done text : List Glyph} {escaped : Bool} {state : State}
    (hopen : Lexer.literalOver done escaped text = .error .unterminatedString)
    (hmode : state.mode = .string escaped) :
    ∃ escaped', text.foldl State.step state = { state with mode := .string escaped' } ∧
      ∀ rest, ∃ literal, Lexer.literalOver done escaped
        (text ++ (filler escaped' ++ .char '"' :: rest)) = .ok (literal, rest) := by
  induction text generalizing done escaped state with
  | nil =>
      refine ⟨escaped, ?_, fun rest => ?_⟩
      · rw [← hmode]
        rfl
      · cases escaped <;> exact ⟨_, rfl⟩
  | cons glyph text ih =>
      cases glyph with
      | stray byte => cases hopen
      | char c =>
          obtain ⟨mode, depth, pending, word⟩ := state
          cases hmode
          rw [Lexer.literalOver] at hopen
          split_ifs at hopen with hescaped hquote
          · subst hescaped
            exact @ih _ _ ⟨.string false, depth, pending, word⟩ hopen rfl
          · obtain ⟨escaped', hfold, hclosed⟩ :=
              @ih _ _ ⟨.string (c = '\\'), depth, pending, word⟩ hopen rfl
            refine ⟨escaped', ?_, fun rest => ?_⟩
            · rw [List.foldl_cons, ← hfold]
              simp [State.step, hescaped, Glyph.isChar, Glyph.satisfies, hquote, beq_eq_decide]
            · obtain ⟨literal, hliteral⟩ := hclosed rest
              exact ⟨literal, by simpa [Lexer.literalOver, hescaped, hquote] using hliteral⟩

theorem foldl_comment {state : State} {text : List Glyph} (hmode : state.mode = .comment) :
    (text.takeWhile (Glyph.satisfies (· != '\n'))).foldl State.step state = state := by
  induction text with
  | nil => rfl
  | cons glyph text ih =>
      cases hline : Glyph.satisfies (· != '\n') glyph with
      | false => simp [hline]
      | true =>
          have hother : glyph.isChar '\n' = false := by
            cases glyph with
            | stray byte => rfl
            | char c => simpa [Glyph.isChar, Glyph.satisfies] using hline
          have hstep : state.step glyph = state := by
            simp [State.step, hmode, hother]
          simpa [hline, hstep] using ih

theorem step_open {state : State} (hmode : state.mode = .code) :
    state.step (.char '(') = ⟨.code, state.depth + 1, false, .none⟩ := by
  simp [State.step, hmode, Glyph.endsWord, State.delimit, Glyph.isChar, Glyph.satisfies,
    mode_endWord]

theorem step_close {state : State} (hmode : state.mode = .code) :
    state.step (.char ')') = ⟨.code, state.depth - 1, false, .none⟩ := by
  simp [State.step, hmode, Glyph.endsWord, State.delimit, Glyph.isChar, Glyph.satisfies,
    mode_endWord]

theorem step_quote {state : State} (hmode : state.mode = .code) :
    state.step (.char '\'') = ⟨.code, state.depth, true, .none⟩ := by
  simp [State.step, hmode, Glyph.endsWord, State.delimit, Glyph.isChar, Glyph.satisfies,
    mode_endWord]

theorem step_string {state : State} (hmode : state.mode = .code) :
    state.step (.char '"') = ⟨.string false, state.depth, false, .none⟩ := by
  simp [State.step, hmode, Glyph.endsWord, State.delimit, Glyph.isChar, Glyph.satisfies]

/-- Behind a parenthesis, quote or literal no word is open. -/
theorem tracks_of_mark {forms : List OpenForm} {text : List Glyph} {depth : Int}
    {pending : Bool} (hdepth : depth = Nest.lists forms)
    (hpending : pending = true ↔ ¬Nest.Settled forms) :
    Tracks forms ⟨.code, depth, pending, .none⟩ text :=
  ⟨.code rfl fun hword => absurd rfl hword, hdepth, hpending⟩

/-- What the lexer splits off from a word is not in front of the walk. -/
theorem Between.word_none {state : State} {text : List Glyph} (hbetween : Between state text)
    (hruns : Lexer.runsOn text = true) : state.word = .none := by
  cases hbetween with
  | comment _ hword => exact hword
  | code _ hword =>
      by_contra hother
      rw [hword hother] at hruns
      cases hruns

theorem Tracks.comment {forms : List OpenForm} {state : State} {behind : List Glyph}
    (htracks : Tracks forms state (.char ';' :: behind)) (hplain : Plain behind)
    (hmode : state.mode = .code) :
    Tracks forms
      ((.char ';' :: behind.takeWhile (Glyph.satisfies (· != '\n'))).foldl State.step state)
      (behind.dropWhile (Glyph.satisfies (· != '\n'))) := by
  have hword := htracks.between.word_none rfl
  have hstep : state.step (.char ';') = { state with mode := .comment } := by
    simp [State.step, hmode, hword, Glyph.isChar, Glyph.satisfies]
  have hpending := htracks.pending
  rw [endWord_of_none hword] at hpending
  rw [List.foldl_cons, hstep, foldl_comment rfl]
  refine ⟨.comment rfl hword ?_, htracks.depth, ?_⟩
  · intro glyph hmem
    have hnot := List.head?_dropWhile_not (Glyph.satisfies (· != '\n')) behind
    rw [Option.mem_def.mp hmem] at hnot
    obtain ⟨c, rfl, _⟩ := hplain glyph
      ((List.dropWhile_suffix _).mem (List.mem_of_mem_head? hmem))
    simpa [Glyph.satisfies] using hnot
  · rwa [@endWord_of_none { state with mode := .comment } hword]

/-- A dot that stands alone waits for an expression. -/
theorem Tracks.dot {forms after : List OpenForm} {state : State} {behind : List Glyph}
    (htracks : Tracks forms state (.char '.' :: behind)) (hmode : state.mode = .code)
    (halone : behind.takeWhile (Glyph.satisfies Lexer.isSymbolChar) = [])
    (hlists : Nest.lists after = Nest.lists forms) (hwaits : ¬Nest.Settled after) :
    Tracks after (state.step (.char '.'))
      (behind.dropWhile (Glyph.satisfies Lexer.isSymbolChar)) := by
  have hruns : Lexer.runsOn (.char '.' :: behind) = true := by
    cases behind with
    | nil => rfl
    | cons glyph behind =>
        have hglyph : glyph.satisfies Lexer.isSymbolChar = false := by
          simpa using halone
        have hdot : Glyph.isChar '.' (.char '.') = true := rfl
        simp [Lexer.runsOn, hdot, hglyph]
  have hword := htracks.between.word_none hruns
  have hstep : state.step (.char '.') = { state with word := .dot } := by
    simp [State.step, hmode, hword, Glyph.isChar, Glyph.satisfies, Glyph.endsWord,
      Glyph.isAsciiBlank, isAsciiBlank, State.extendWord]
  rw [hstep]
  refine ⟨.code hmode fun _ => Lexer.runsOn_dropWhile behind, ?_, ?_⟩
  · rw [htracks.depth, hlists]
  · simp [State.endWord, hwaits]

/-- Behind a number or symbol nothing is wanting. -/
theorem Tracks.word {forms after : List OpenForm} {state : State} {c : Char}
    {text behind : List Glyph} {p : Char → Bool}
    (hsymbol : ∀ c, p c = true → Lexer.isSymbolChar c = true)
    (htracks : Tracks forms state text) (hmode : state.mode = .code)
    (hmark : Lexer.isMark c = false) (hblank : isBlank c = false)
    (hdot : c = '.' → behind.takeWhile (Glyph.satisfies p) ≠ [])
    (hrest : Lexer.runsOn (behind.dropWhile (Glyph.satisfies p)) = false)
    (hlists : Nest.lists after = Nest.lists forms) (hsettled : Nest.Settled after) :
    Tracks after ((.char c :: behind.takeWhile (Glyph.satisfies p)).foldl State.step state)
      (behind.dropWhile (Glyph.satisfies p)) := by
  have hends : ∀ glyph ∈ Glyph.char c :: behind.takeWhile (Glyph.satisfies p),
      glyph.endsWord = false := by
    refine List.forall_mem_cons.mpr ⟨?_, fun glyph hmem => ?_⟩
    · exact Nesting.endsWord_of_isSymbolChar (isSymbolChar_of_noMark hmark hblank)
    · have hglyph := List.mem_takeWhile_imp hmem
      cases glyph with
      | stray byte => cases hglyph
      | char c => exact Nesting.endsWord_of_isSymbolChar (hsymbol c hglyph)
  have hcomment : Glyph.isChar ';' (.char c) = false := by
    simp only [Lexer.isMark, Bool.or_eq_false_iff] at hmark
    exact hmark.1.2
  have hdot' : Glyph.isChar '.' (.char c) = true → state.word = .none →
      behind.takeWhile (Glyph.satisfies p) ≠ [] := by
    intro hchar _
    exact hdot (by simpa [Glyph.isChar, Glyph.satisfies] using hchar)
  rw [foldl_symbol hmode hcomment hends hdot']
  exact ⟨.code hmode fun _ => hrest, by rw [hlists]; exact htracks.depth,
    by simp [State.endWord, hsettled]⟩

/-- The walk tracks the reader over every token that the lexer splits off. -/
theorem Tracks.starts {limit : Int} {nest after : Nest} {state : State} {c : Char}
    {behind taken rest : List Glyph} {token : Token}
    (htracks : Tracks nest.forms state (.char c :: behind)) (hplain : Plain (.char c :: behind))
    (hblank : isBlank c = false) (hstarts : Lexer.Starts c behind token.kind taken rest)
    (hnumber : token.kind = .int → Lexer.runsOn rest = false)
    (hstep : nest.step limit token = .more after) :
    Tracks after.forms (taken.foldl State.step state) rest := by
  have hturns := Nest.turns_step hstep
  have hmode := htracks.between.mode_code hblank
  have hdepth := htracks.depth
  -- One case for each kind of token: what the walk counts is what the forms gain or lose.
  generalize token.kind = kind at hstarts hturns hnumber
  cases hstarts with
  | openParen hc =>
      subst hc
      rw [List.foldl_cons, List.foldl_nil, step_open hmode]
      exact tracks_of_mark (by rw [hturns.1, hdepth]; rfl) (by simp [hturns.2])
  | closeParen hc =>
      subst hc
      rw [List.foldl_cons, List.foldl_nil, step_close hmode]
      exact tracks_of_mark (by rw [hdepth, ← hturns.1]; simp) (by simp [hturns.2])
  | quote hc =>
      subst hc
      rw [List.foldl_cons, List.foldl_nil, step_quote hmode]
      exact tracks_of_mark (by rw [hdepth, hturns.1]) (by simp [hturns.2])
  | comment hc =>
      subst hc
      have hsame : after.forms = nest.forms := hturns
      rw [hsame]
      exact htracks.comment hplain.tail hmode
  | string hc hliteral =>
      subst hc
      obtain ⟨more, rfl, hfold⟩ := @foldl_literal _ _ _ _ _ (state.step (.char '"')) hliteral
        (by rw [step_string hmode])
      change Tracks _ (more.foldl State.step (state.step (.char '"'))) _
      rw [hfold, step_string hmode]
      exact tracks_of_mark (by rw [hdepth, hturns.1]) (by simp [hturns.2])
  | int hmark hint =>
      have hsymbol : ∀ c, Lexer.isDigit c = true → Lexer.isSymbolChar c = true := by
        intro c hdigit
        obtain ⟨hmark, hblank⟩ := digit_noMark hdigit
        exact isSymbolChar_of_noMark hmark hblank
      refine htracks.word hsymbol hmode hmark hblank ?_ (hnumber rfl) hturns.1 hturns.2
      rintro rfl
      cases hint
  | dot hmark hint hdot =>
      obtain ⟨rfl, halone⟩ := glyphBytes_cons_eq_dot hdot
      rw [halone, List.foldl_cons, List.foldl_nil]
      exact htracks.dot hmode halone hturns.1 hturns.2
  | symbol hmark hint hdot =>
      refine htracks.word (fun _ => id) hmode hmark hblank ?_ (Lexer.runsOn_dropWhile behind)
        hturns.1 hturns.2
      rintro rfl halone
      rw [halone] at hdot
      exact hdot (by decide)

theorem Tracks.token {limit : Int} {nest after : Nest} {state : State}
    {text taken rest : List Glyph} {token : Token} (htracks : Tracks nest.forms state text)
    (hplain : Plain text) (hlexeme : Lexer.lexeme text = .token token.kind taken rest)
    (hnumber : token.kind = .int → Lexer.runsOn rest = false)
    (hstep : nest.step limit token = .more after) :
    ∃ state', text.foldl State.step state = rest.foldl State.step state' ∧
      Tracks after.forms state' rest := by
  obtain ⟨c, behind, hdrop, hstarts⟩ := Lexer.starts_of_lexeme hlexeme
  obtain ⟨hplain', hblank⟩ := Grammar.plain_at_lexeme hplain hdrop
  have hfront := htracks.blanks hplain
  rw [hdrop] at hfront
  refine ⟨_, ?_, hfront.starts hplain' hblank hstarts hnumber hstep⟩
  obtain ⟨more, rfl, rfl⟩ := hstarts.append
  have hsplit := List.takeWhile_append_dropWhile (p := Glyph.satisfies isBlank) (l := text)
  rw [hdrop] at hsplit
  rw [← List.foldl_append, ← List.foldl_append, List.cons_append, hsplit]

end Completion

end MiniLisp
