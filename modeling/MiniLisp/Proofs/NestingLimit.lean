import Mathlib.Data.List.DropRight
import MiniLisp.Proofs.Completable
import MiniLisp.Proofs.RoundTrip
import MiniLisp.Proofs.TokenPlaces

/-!
The limit on nesting.  The token reader counts the forms that are open, and the walk along
the glyphs counts parentheses and the quotes that wait in each list.  Token by token the walk
is inside of the forms that the reader has open, so both come to the limit at one place,
provided that they split the text alike.  White space beyond ASCII is a word for the walk,
and so is a comment that a number runs into.
-/

namespace MiniLisp

def Glyph.isBracket (glyph : Glyph) : Bool :=
  glyph.satisfies fun c => c == '(' || c == ')' || c == '\'' || c == '"'

namespace Lexer

/-- Whether a text starts with a comment that has a parenthesis or quote in it. -/
def hidesBracket : (text : List Glyph) → Bool
  | [] => false
  | glyph :: rest =>
      glyph.isChar ';' &&
        (rest.takeWhile (Glyph.satisfies (· != '\n'))).any Glyph.isBracket

/-- The white space in front of tokens is ASCII, and no number runs into a comment that has
a parenthesis or quote in it. -/
inductive Separated : (text : List Glyph) → Prop
  | ended {text : List Glyph} (hlexeme : lexeme text = .ended) : Separated text
  | stopped {text : List Glyph} {fault : Fault} (hlexeme : lexeme text = .stopped fault) :
      Separated text
  | token {text taken rest : List Glyph} {kind : Token.Kind}
      (hlexeme : lexeme text = .token kind taken rest)
      (hblanks : ∀ glyph ∈ text.takeWhile (Glyph.satisfies isBlank),
        glyph.isAsciiBlank = true)
      (hnumber : kind = .int → hidesBracket rest = false) (hrest : Separated rest) :
      Separated text

theorem Separated.of_token {text taken rest : List Glyph} {kind : Token.Kind}
    (hseparated : Separated text) (hlexeme : lexeme text = .token kind taken rest) :
    (∀ glyph ∈ text.takeWhile (Glyph.satisfies isBlank), glyph.isAsciiBlank = true) ∧
      (kind = .int → hidesBracket rest = false) ∧ Separated rest := by
  cases hseparated with
  | ended hlexeme' => simp [hlexeme'] at hlexeme
  | stopped hlexeme' => simp [hlexeme'] at hlexeme
  | token hlexeme' hblanks hnumber hrest =>
      rw [hlexeme'] at hlexeme
      cases hlexeme
      exact ⟨hblanks, hnumber, hrest⟩

/-- There is no comment behind a symbol, nor behind a comment. -/
theorem hidesBracket_dropWhile {p : Char → Bool} (hcomment : p ';' = true)
    (text : List Glyph) : hidesBracket (text.dropWhile (Glyph.satisfies p)) = false := by
  cases hdrop : text.dropWhile (Glyph.satisfies p) with
  | nil => rfl
  | cons glyph rest =>
      simp [hidesBracket, isChar_of_dropWhile hdrop hcomment]

end Lexer

/-! ### The forms that are open for the reader -/

def OpenForm.isQuote : OpenForm → Bool
  | .quote => true
  | _ => false

namespace Nest

/-- Which of the open forms are quotes. -/
def shape (forms : List OpenForm) : List Bool :=
  forms.map OpenForm.isQuote

/-- How a token changes the shape of the open forms.  An expression ends the quotes that
wait for it. -/
def Reshapes (limit : Int) (kind : Token.Kind) (shape after : List Bool) : Prop :=
  match kind with
  | .comment => after = shape
  | .openParen => after = false :: shape ∧ shape.length + 1 ≤ limit
  | .quote => after = true :: shape ∧ shape.length + 1 ≤ limit
  | .closeParen => ∃ outer, shape = false :: outer ∧ after = outer.dropWhile id
  | _ => after = shape.dropWhile id

/-- What a token leads to, as far as nesting goes: open forms of another shape, or a
fault. -/
def Progress.Reshapes (limit : Int) (token : Token) (shape : List Bool) : Progress → Prop
  | .more nest =>
      nest.depth = nest.forms.length ∧
        Nest.Reshapes limit token.kind shape (Nest.shape nest.forms)
  | .done _ => Nest.Reshapes limit token.kind shape []
  | .fault error => ∀ n source, error = ⟨.tooDeep n, source⟩ →
      source = token.source ∧ (token.kind = .openParen ∨ token.kind = .quote) ∧
        limit < shape.length + 1

/-- A value ends the quotes that wait for it. -/
theorem supply_cases {depth : Nat} {forms : List OpenForm} (value : Value)
    (hdepth : depth = forms.length) :
    (∃ result, supply depth forms value = .done result ∧ (shape forms).dropWhile id = []) ∨
      ∃ nest, supply depth forms value = .more nest ∧ nest.depth = nest.forms.length ∧
        shape nest.forms = (shape forms).dropWhile id := by
  induction forms generalizing depth value with
  | nil => exact .inl ⟨value, rfl, rfl⟩
  | cons form outer ih =>
      cases form with
      | quote => exact ih value.quote (by rw [hdepth]; rfl)
      | items opener done => exact .inr ⟨_, rfl, hdepth, rfl⟩
      | tail opener done => exact .inr ⟨_, rfl, hdepth, rfl⟩
      | close opener done tail => exact .inr ⟨_, rfl, hdepth, rfl⟩

theorem reshapes_supply {limit : Int} {token : Token} {shape : List Bool} {depth : Nat}
    {forms : List OpenForm} (value : Value) (hdepth : depth = forms.length)
    (hreshapes : Reshapes limit token.kind shape ((Nest.shape forms).dropWhile id)) :
    (supply depth forms value).Reshapes limit token shape := by
  rcases supply_cases value hdepth with ⟨result, hsupply, hnil⟩ | ⟨nest, hsupply, hnest, hshape⟩
  · rw [hnil] at hreshapes
    rw [hsupply]
    exact hreshapes
  · rw [← hshape] at hreshapes
    rw [hsupply]
    exact ⟨hnest, hreshapes⟩

/-- A form is opened within the limit, or it is too deep. -/
theorem reshapes_enter {limit : Int} (hlimit : 0 < limit) {nest : Nest} {token : Token}
    {form : OpenForm} (hdepth : nest.depth = nest.forms.length)
    (hkind : token.kind = .openParen ∧ form.isQuote = false ∨
      token.kind = .quote ∧ form.isQuote = true) :
    (nest.enter limit form token).Reshapes limit token (shape nest.forms) := by
  have hlength : (shape nest.forms).length = nest.depth := by
    rw [shape, List.length_map, hdepth]
  rw [enter]
  split_ifs with hdeep
  · intro n source herror
    cases herror
    rw [hlength]
    refine ⟨rfl, ?_, hdeep.2⟩
    rcases hkind with ⟨hkind, _⟩ | ⟨hkind, _⟩
    · exact .inl hkind
    · exact .inr hkind
  · have hroom : ((shape nest.forms).length : Int) + 1 ≤ limit := by
      rw [hlength]
      omega
    refine ⟨congrArg (· + 1) hdepth, ?_⟩
    rcases hkind with ⟨hkind, hform⟩ | ⟨hkind, hform⟩
    · rw [hkind]
      exact ⟨congrArg (· :: _) hform, hroom⟩
    · rw [hkind]
      exact ⟨congrArg (· :: _) hform, hroom⟩

theorem reshapes_expression {limit : Int} (hlimit : 0 < limit) {nest : Nest} (token : Token)
    (hdepth : nest.depth = nest.forms.length) :
    (nest.expression limit token).Reshapes limit token (shape nest.forms) := by
  have hvalue : ∀ value, token.kind = .int ∨ token.kind = .string ∨ token.kind = .symbol →
      (supply nest.depth nest.forms value).Reshapes limit token (shape nest.forms) := by
    intro value hkind
    apply reshapes_supply value hdepth
    rcases hkind with hkind | hkind | hkind <;> rw [hkind] <;> rfl
  rw [expression]
  split
  · next hkind =>
      refine ⟨hdepth, ?_⟩
      rw [hkind]
      rfl
  · next hkind =>
      split
      · exact hvalue _ (.inl hkind)
      · exact nofun
  · next hkind =>
      split
      · exact hvalue _ (.inr (.inl hkind))
      · exact nofun
  · next hkind => exact hvalue _ (.inr (.inr hkind))
  · next hkind => exact reshapes_enter hlimit hdepth (.inr ⟨hkind, rfl⟩)
  · next hkind => exact reshapes_enter hlimit hdepth (.inl ⟨hkind, rfl⟩)
  · exact nofun
  · exact nofun

/-- What a token does to the shape of the open forms. -/
theorem reshapes_step {limit : Int} (hlimit : 0 < limit) {nest : Nest} (token : Token)
    (hdepth : nest.depth = nest.forms.length) :
    (nest.step limit token).Reshapes limit token (shape nest.forms) := by
  rw [step]
  split
  · next hforms hkind =>
      rw [hforms] at hdepth ⊢
      apply reshapes_supply _ (by rw [hdepth]; rfl)
      rw [hkind]
      exact ⟨_, rfl, rfl⟩
  · next hforms hkind =>
      split_ifs
      · exact nofun
      · rw [hforms] at hdepth ⊢
        refine ⟨hdepth, ?_⟩
        rw [hkind]
        rfl
  · exact nofun
  · next hforms hkind =>
      rw [hforms] at hdepth ⊢
      apply reshapes_supply _ (by rw [hdepth]; rfl)
      rw [hkind]
      exact ⟨_, rfl, rfl⟩
  · next hkind =>
      refine ⟨hdepth, ?_⟩
      rw [hkind]
      rfl
  · exact nofun
  · exact reshapes_expression hlimit token hdepth

end Nest

/-! ### The walk inside of forms -/

namespace Nesting

namespace State

/-- The state of the walk inside of forms, innermost first, of which some are quotes. -/
def inside (mode : Mode) : (shape : List Bool) → State
  | [] => ⟨mode, 0, 0, []⟩
  | true :: outer => (inside mode outer).openQuote
  | false :: outer => (inside mode outer).openList

theorem withMode_openQuote (state : State) (mode : Mode) :
    { state.openQuote with mode := mode } = { state with mode := mode }.openQuote := by
  obtain ⟨_, depth, outside, lists⟩ := state
  cases lists <;> rfl

/-- The forms do not depend on what the walk does inside of them. -/
theorem withMode_inside (mode mode' : Mode) (shape : List Bool) :
    { inside mode shape with mode := mode' } = inside mode' shape := by
  induction shape with
  | nil => rfl
  | cons quote outer ih =>
      cases quote with
      | true => rw [inside, inside, withMode_openQuote, ih]
      | false => rw [inside, inside, ← ih]; rfl

@[simp]
theorem mode_inside (mode : Mode) (shape : List Bool) : (inside mode shape).mode = mode := by
  rw [← withMode_inside mode mode shape]

@[simp]
theorem depth_inside (mode : Mode) (shape : List Bool) :
    (inside mode shape).depth = shape.length := by
  induction shape with
  | nil => rfl
  | cons quote outer ih =>
      cases quote with
      | true =>
          rw [inside, openQuote, List.length_cons, ← ih]
          split <;> rfl
      | false => rw [inside, openList, List.length_cons, ← ih]

theorem endExpression_openQuote (state : State) :
    state.openQuote.endExpression = state.endExpression := by
  obtain ⟨mode, depth, outside, lists⟩ := state
  cases lists with
  | nil => simp [openQuote, endExpression]
  | cons quotes outer => simp [openQuote, endExpression]

/-- The end of an expression ends the quotes that wait for it. -/
theorem endExpression_inside (mode : Mode) (shape : List Bool) :
    (inside mode shape).endExpression = inside .between (shape.dropWhile id) := by
  induction shape with
  | nil => rfl
  | cons quote outer ih =>
      cases quote with
      | true => rw [inside, endExpression_openQuote, ih]; rfl
      | false => exact withMode_inside mode .between (false :: outer)

end State

/-- The walk is inside of forms, behind an expression.  A word may go on; then the quotes
that wait for it are still counted. -/
inductive Inside (shape : List Bool) : State → Prop
  | between : Inside shape (.inside .between shape)
  | word {waiting : List Bool} (hended : waiting.dropWhile id = shape) :
      Inside shape (.inside .word waiting)
  | comment : Inside shape (.inside .comment shape)

/-- The walk stands between two tokens of the lexer.  A comment goes on only up to the end of
its line, and a word goes on only if it hides no parenthesis or quote from the walk. -/
structure Follows (shape : List Bool) (text : List Glyph) (state : State) : Prop where
  inside : Inside shape state
  word (hmode : state.mode = .word) : Lexer.hidesBracket text = false
  comment (hmode : state.mode = .comment) (c : Char) (hc : text.head? = some (.char c)) :
    c = '\n'

section

variable {limit : Nat} {shape : List Bool} {text : List Glyph} {state : State} {c : Char}

theorem follows_between (shape : List Bool) (text : List Glyph) :
    Follows shape text (.inside .between shape) :=
  ⟨.between, by simp, by simp⟩

/-! ### Steps of the walk -/

theorem step_between (limit : Nat) (shape : List Bool) (glyph : Glyph) :
    step limit (.inside .between shape) glyph = between limit (.inside .between shape) glyph := by
  rw [step, State.mode_inside]

theorem step_word (limit : Nat) (waiting : List Bool) {glyph : Glyph}
    (hends : glyph.endsWord = false) :
    step limit (.inside .word waiting) glyph = .next (.inside .word waiting) := by
  rw [step, State.mode_inside]
  simp [hends]

theorem step_comment (limit : Nat) (shape : List Bool) {glyph : Glyph}
    (hline : glyph.isChar '\n' = false) :
    step limit (.inside .comment shape) glyph = .next (.inside .comment shape) := by
  rw [step, State.mode_inside]
  simp [hline]

/-- What ends a word is taken as behind it. -/
theorem Follows.step_eq (hfollows : Follows shape (.char c :: text) state)
    (hends : (Glyph.char c).endsWord = true) (hline : c ≠ '\n') :
    step limit state (.char c) = between limit (.inside .between shape) (.char c) := by
  cases hfollows.inside with
  | between => exact step_between limit shape (.char c)
  | word hended =>
      rw [step, State.mode_inside]
      simp [hends, State.endExpression_inside, hended]
  | comment => exact absurd (hfollows.comment (by simp) c rfl) hline

theorem Follows.step_blank (hfollows : Follows shape (.char c :: text) state)
    (hblank : isAsciiBlank c = true) :
    step limit state (.char c) = .next (.inside .between shape) := by
  have hglyph : (Glyph.char c).isAsciiBlank = true := hblank
  by_cases hline : c = '\n'
  · subst hline
    cases hfollows.inside with
    | between => exact step_between limit shape _
    | word hended =>
        rw [step, State.mode_inside]
        simp [Glyph.endsWord, hglyph, State.endExpression_inside, hended, between]
    | comment =>
        rw [step, State.mode_inside]
        exact congrArg Step.next (State.withMode_inside .comment .between shape)
  · rw [hfollows.step_eq (by simp [Glyph.endsWord, hglyph]) hline, between, if_pos hglyph]

theorem Follows.blanks (hfollows : Follows shape text state)
    (hblanks : ∀ glyph ∈ text.takeWhile (Glyph.satisfies isBlank), glyph.isAsciiBlank = true) :
    ∃ state', Passes limit (text.takeWhile (Glyph.satisfies isBlank)) state state' ∧
      Follows shape (text.dropWhile (Glyph.satisfies isBlank)) state' := by
  induction text generalizing state with
  | nil => exact ⟨state, .nil state, hfollows⟩
  | cons glyph text ih =>
      cases hblank : glyph.satisfies isBlank with
      | false =>
          rw [List.takeWhile_cons_of_neg (by simp [hblank]),
            List.dropWhile_cons_of_neg (by simp [hblank])]
          exact ⟨state, .nil state, hfollows⟩
      | true =>
          rw [List.takeWhile_cons_of_pos hblank] at hblanks ⊢
          rw [List.dropWhile_cons_of_pos hblank]
          rw [List.forall_mem_cons] at hblanks
          cases glyph with
          | stray byte => cases hblank
          | char c =>
              obtain ⟨state', hpasses, hbehind⟩ := ih (follows_between shape text) hblanks.2
              exact ⟨state', .cons (hfollows.step_blank hblanks.1) hpasses, hbehind⟩

/-! ### Tokens -/

/-- A comment goes on to the end of its line. -/
theorem passes_comment (limit : Nat) (shape : List Bool) (text : List Glyph) :
    Passes limit (text.takeWhile (Glyph.satisfies (· != '\n'))) (.inside .comment shape)
      (.inside .comment shape) := by
  induction text with
  | nil => exact .nil _
  | cons glyph text ih =>
      cases hother : glyph.satisfies (· != '\n') with
      | false =>
          rw [List.takeWhile_cons_of_neg (by simp [hother])]
          exact .nil _
      | true =>
          rw [List.takeWhile_cons_of_pos hother]
          refine .cons (step_comment limit shape ?_) ih
          cases glyph with
          | stray byte => rfl
          | char c => simpa [Glyph.isChar, Glyph.satisfies] using hother

/-- Between expressions, what is no parenthesis or quote starts a word or a comment at most. -/
theorem between_quiet (limit : Nat) (hsettled : shape.dropWhile id = shape) {glyph : Glyph}
    (hquiet : glyph.isBracket = false) :
    ∃ state', between limit (.inside .between shape) glyph = .next state' ∧
      Inside shape state' := by
  have hother : ∀ c, c = '(' ∨ c = ')' ∨ c = '\'' ∨ c = '"' → glyph.isChar c = false := by
    intro c hc
    cases glyph with
    | stray byte => rfl
    | char d =>
        simp only [Glyph.isBracket, Glyph.satisfies, Bool.or_eq_false_iff] at hquiet
        rcases hc with rfl | rfl | rfl | rfl
        · exact hquiet.1.1.1
        · exact hquiet.1.1.2
        · exact hquiet.1.2
        · exact hquiet.2
  rw [between]
  simp only [hother '(' (by simp), hother ')' (by simp), hother '\'' (by simp),
    hother '"' (by simp), Bool.false_eq_true, if_false]
  split_ifs
  · exact ⟨_, rfl, .between⟩
  · exact ⟨_, congrArg Step.next (State.withMode_inside _ .comment shape), .comment⟩
  · exact ⟨_, congrArg Step.next (State.withMode_inside _ .word shape), .word hsettled⟩

/-- Where no quote waits, the walk stays inside of the same forms up to the next parenthesis
or quote. -/
theorem step_quiet (limit : Nat) (hinside : Inside shape state)
    (hsettled : shape.dropWhile id = shape) {glyph : Glyph} (hquiet : glyph.isBracket = false) :
    ∃ state', step limit state glyph = .next state' ∧ Inside shape state' := by
  cases hinside with
  | between =>
      rw [step_between]
      exact between_quiet limit hsettled hquiet
  | word hended =>
      cases hends : glyph.endsWord with
      | false => exact ⟨_, step_word limit _ hends, .word hended⟩
      | true =>
          rw [step, State.mode_inside]
          simp only [hends, if_true, State.endExpression_inside, hended]
          exact between_quiet limit hsettled hquiet
  | comment =>
      rw [step, State.mode_inside]
      refine ⟨_, rfl, ?_⟩
      split_ifs
      · rw [State.withMode_inside]
        exact .between
      · exact .comment

theorem passes_quiet (limit : Nat) (hinside : Inside shape state)
    (hsettled : shape.dropWhile id = shape)
    (hquiet : ∀ glyph ∈ text, glyph.isBracket = false) :
    ∃ state', Passes limit text state state' ∧ Inside shape state' := by
  induction text generalizing state with
  | nil => exact ⟨state, .nil state, hinside⟩
  | cons glyph text ih =>
      rw [List.forall_mem_cons] at hquiet
      obtain ⟨next, hstep, hnext⟩ := step_quiet limit hinside hsettled hquiet.1
      obtain ⟨last, hpasses, hlast⟩ := ih hnext hquiet.2
      exact ⟨last, .cons hstep hpasses, hlast⟩

/-- A run of characters that continue a word. -/
theorem passes_run (limit : Nat) (waiting : List Bool)
    (hends : ∀ glyph ∈ text, glyph.endsWord = false) :
    Passes limit text (.inside .word waiting) (.inside .word waiting) := by
  induction text with
  | nil => exact .nil _
  | cons glyph text ih =>
      rw [List.forall_mem_cons] at hends
      exact .cons (step_word limit waiting hends.1) (ih hends.2)

/-- The walk leaves a literal where the lexer does, and ends the expression. -/
theorem passes_literal (limit : Nat) (shape : List Bool) {done text literal rest : List Glyph}
    {escaped : Bool} (hliteral : Lexer.literalOver done escaped text = .ok (literal, rest)) :
    ∃ more, literal = done.reverse ++ more ∧
      Passes limit more (.inside (.string escaped) shape)
        (.inside .between (shape.dropWhile id)) := by
  induction text generalizing done escaped with
  | nil => cases hliteral
  | cons glyph text ih =>
      cases glyph with
      | stray byte => cases hliteral
      | char c =>
          rw [Lexer.literalOver] at hliteral
          split_ifs at hliteral with hescaped hquote
          · subst hescaped
            obtain ⟨more, rfl, hpasses⟩ := ih hliteral
            refine ⟨.char c :: more, by simp, .cons ?_ hpasses⟩
            rw [step, State.mode_inside]
            exact congrArg Step.next (State.withMode_inside _ (.string false) shape)
          · cases hliteral
            refine ⟨[.char c], by simp, .cons ?_ (.nil _)⟩
            rw [step, State.mode_inside]
            simp [hescaped, hquote, Glyph.isChar, Glyph.satisfies, State.endExpression_inside]
          · obtain ⟨more, rfl, hpasses⟩ := ih hliteral
            refine ⟨.char c :: more, by simp, .cons ?_ hpasses⟩
            rw [step, State.mode_inside]
            have hnext := State.withMode_inside (.string false) (.string (c = '\\')) shape
            simpa [hescaped, hquote, Glyph.isChar, Glyph.satisfies, beq_eq_decide] using hnext

theorem Follows.step_open (hfollows : Follows shape (.char '(' :: text) state) (limit : Nat) :
    step limit state (.char '(') =
      if limit < shape.length + 1 then .overflow
      else .next (.inside .between (false :: shape)) := by
  rw [hfollows.step_eq rfl (by decide), ← State.depth_inside .between shape]
  rfl

theorem Follows.step_quote (hfollows : Follows shape (.char '\'' :: text) state) (limit : Nat) :
    step limit state (.char '\'') =
      if limit < shape.length + 1 then .overflow
      else .next (.inside .between (true :: shape)) := by
  rw [hfollows.step_eq rfl (by decide), ← State.depth_inside .between shape]
  rfl

theorem Follows.step_close {outer : List Bool}
    (hfollows : Follows (false :: outer) (.char ')' :: text) state) :
    step limit state (.char ')') = .next (.inside .between (outer.dropWhile id)) := by
  rw [hfollows.step_eq rfl (by decide), ← State.endExpression_inside .between outer]
  rfl

/-- A comment changes nothing, and leaves the walk at the end of its line. -/
theorem Follows.comment_token {behind : List Glyph}
    (hfollows : Follows shape (.char ';' :: behind) state) :
    ∃ state', Passes limit (.char ';' :: behind.takeWhile (Glyph.satisfies (· != '\n'))) state
        state' ∧
      Follows shape (behind.dropWhile (Glyph.satisfies (· != '\n'))) state' := by
  have hline : ∀ c, (behind.dropWhile (Glyph.satisfies (· != '\n'))).head? = some (.char c) →
      c = '\n' := by
    intro c hhead
    obtain ⟨rest, hdrop⟩ := List.head?_eq_some_iff.mp hhead
    simpa using eq_false_of_dropWhile hdrop
  have hbehind : Lexer.hidesBracket (behind.dropWhile (Glyph.satisfies (· != '\n'))) = false :=
    Lexer.hidesBracket_dropWhile (by decide) behind
  cases hinside : hfollows.inside with
  | between =>
      have hstep : step limit (.inside .between shape) (.char ';') =
          .next (.inside .comment shape) := by
        rw [step_between, ← State.withMode_inside .between .comment shape]
        rfl
      exact ⟨_, .cons hstep (passes_comment limit shape behind), .comment, fun _ => hbehind,
        fun _ => hline⟩
  | word hended =>
      have hsettled : shape.dropWhile id = shape := by
        rw [← hended]
        exact List.dropWhile_idempotent id _
      have hhidden := hfollows.word (State.mode_inside .word _)
      have hquiet : ∀ glyph ∈ Glyph.char ';' :: behind.takeWhile (Glyph.satisfies (· != '\n')),
          glyph.isBracket = false := by
        refine List.forall_mem_cons.mpr ⟨by decide, fun glyph hmem => ?_⟩
        have hany : (behind.takeWhile (Glyph.satisfies (· != '\n'))).any Glyph.isBracket =
            false := hhidden
        simpa using List.any_eq_false.mp hany glyph hmem
      obtain ⟨state', hpasses, hlast⟩ := passes_quiet limit (.word hended) hsettled hquiet
      exact ⟨state', hpasses, hlast, fun _ => hbehind, fun _ => hline⟩
  | comment => exact absurd (hfollows.comment (by simp) ';' rfl) (by decide)

/-- A number, symbol or dot ends with a word of the walk. -/
theorem Follows.word_token {behind : List Glyph} {p : Char → Bool}
    (hfollows : Follows shape (.char c :: behind) state)
    (hsymbol : ∀ c, p c = true → Lexer.isSymbolChar c = true)
    (hmark : Lexer.isMark c = false) (hblank : isBlank c = false)
    (hrest : Lexer.hidesBracket (behind.dropWhile (Glyph.satisfies p)) = false) :
    ∃ state', Passes limit (.char c :: behind.takeWhile (Glyph.satisfies p)) state state' ∧
      Follows (shape.dropWhile id) (behind.dropWhile (Glyph.satisfies p)) state' := by
  have hends : ∀ glyph ∈ behind.takeWhile (Glyph.satisfies p), glyph.endsWord = false := by
    intro glyph hmem
    have hglyph := List.mem_takeWhile_imp hmem
    cases glyph with
    | stray byte => cases hglyph
    | char c => exact endsWord_of_isSymbolChar (hsymbol c hglyph)
  have hfollowed : ∀ waiting : List Bool, waiting.dropWhile id = shape.dropWhile id →
      Follows (shape.dropWhile id) (behind.dropWhile (Glyph.satisfies p))
        (.inside .word waiting) :=
    fun waiting hended => ⟨.word hended, fun _ => hrest, by simp⟩
  cases hinside : hfollows.inside with
  | between =>
      have hstep : step limit (.inside .between shape) (.char c) = .next (.inside .word shape) := by
        simp only [Lexer.isMark, Bool.or_eq_false_iff] at hmark
        simp only [isBlank, Bool.or_eq_false_iff] at hblank
        rw [step_between, ← State.withMode_inside .between .word shape]
        simp [between, Glyph.isAsciiBlank, Glyph.isChar, Glyph.satisfies, hmark, hblank]
      exact ⟨_, .cons hstep (passes_run limit shape hends), hfollowed shape rfl⟩
  | @word waiting hended =>
      have hstep := step_word limit waiting
        (endsWord_of_isSymbolChar (isSymbolChar_of_noMark hmark hblank))
      refine ⟨_, .cons hstep (passes_run limit waiting hends), hfollowed waiting ?_⟩
      rw [← hended]
      exact (List.dropWhile_idempotent id waiting).symm
  | comment =>
      obtain rfl := hfollows.comment (by simp) c rfl
      cases hblank

/-- A literal is an expression. -/
theorem Follows.string_token {behind literal rest : List Glyph}
    (hfollows : Follows shape (.char '"' :: behind) state)
    (hliteral : Lexer.literalOver [.char '"'] false behind = .ok (literal, rest)) :
    ∃ state', Passes limit literal state state' ∧ Follows (shape.dropWhile id) rest state' := by
  obtain ⟨more, rfl, hpasses⟩ := passes_literal limit shape hliteral
  have hstep : step limit state (.char '"') = .next (.inside (.string false) shape) := by
    rw [hfollows.step_eq rfl (by decide), ← State.withMode_inside .between (.string false) shape]
    rfl
  exact ⟨_, .cons hstep hpasses, follows_between _ rest⟩

end

/-- The walk follows the reader over every token that the lexer splits off. -/
theorem Follows.starts {limit : Int} {shape after : List Bool} {state : State} {c : Char}
    {behind taken rest : List Glyph} {kind : Token.Kind}
    (hfollows : Follows shape (.char c :: behind) state) (hblank : isBlank c = false)
    (hstarts : Lexer.Starts c behind kind taken rest)
    (hnumber : kind = .int → Lexer.hidesBracket rest = false)
    (hreshapes : Nest.Reshapes limit kind shape after) :
    ∃ state', Passes limit.toNat taken state state' ∧ Follows after rest state' := by
  cases hstarts with
  | openParen hc =>
      subst hc
      obtain ⟨rfl, hroom⟩ := hreshapes
      have hstep := hfollows.step_open limit.toNat
      rw [if_neg (by omega)] at hstep
      exact ⟨_, .cons hstep (.nil _), follows_between _ behind⟩
  | closeParen hc =>
      subst hc
      obtain ⟨outer, rfl, rfl⟩ := hreshapes
      exact ⟨_, .cons hfollows.step_close (.nil _), follows_between _ behind⟩
  | quote hc =>
      subst hc
      obtain ⟨rfl, hroom⟩ := hreshapes
      have hstep := hfollows.step_quote limit.toNat
      rw [if_neg (by omega)] at hstep
      exact ⟨_, .cons hstep (.nil _), follows_between _ behind⟩
  | comment hc =>
      subst hc
      obtain rfl : after = shape := hreshapes
      exact hfollows.comment_token
  | string hc hliteral =>
      subst hc
      obtain rfl : after = shape.dropWhile id := hreshapes
      exact hfollows.string_token hliteral
  | int hmark hint =>
      obtain rfl : after = shape.dropWhile id := hreshapes
      have hsymbol : ∀ c, Lexer.isDigit c = true → Lexer.isSymbolChar c = true := by
        intro c hdigit
        obtain ⟨hmark, hblank⟩ := digit_noMark hdigit
        exact isSymbolChar_of_noMark hmark hblank
      exact hfollows.word_token hsymbol hmark hblank (hnumber rfl)
  | dot hmark =>
      obtain rfl : after = shape.dropWhile id := hreshapes
      exact hfollows.word_token (fun _ => id) hmark hblank
        (Lexer.hidesBracket_dropWhile (by decide) behind)
  | symbol hmark =>
      obtain rfl : after = shape.dropWhile id := hreshapes
      exact hfollows.word_token (fun _ => id) hmark hblank
        (Lexer.hidesBracket_dropWhile (by decide) behind)

/-- The walk finds a form that is too deep where it opens. -/
theorem Follows.step_overflow {limit : Nat} {shape : List Bool} {state : State} {c : Char}
    {behind taken rest : List Glyph} {kind : Token.Kind}
    (hfollows : Follows shape (.char c :: behind) state)
    (hstarts : Lexer.Starts c behind kind taken rest)
    (hkind : kind = .openParen ∨ kind = .quote) (hdeep : limit < shape.length + 1) :
    step limit state (.char c) = .overflow := by
  rcases hkind with rfl | rfl
  · cases hstarts with
    | openParen hc =>
        subst hc
        rw [hfollows.step_open, if_pos hdeep]
  · cases hstarts with
    | quote hc =>
        subst hc
        rw [hfollows.step_quote, if_pos hdeep]

/-! ### The walk over all tokens -/

/-- What the walk passes makes no difference but for the bytes that it counts. -/
theorem Passes.overflowOver_append {limit : Nat} {text more : List Glyph} {state last : State}
    (hpasses : Passes limit text state last) {offset extent : Nat}
    (hoffset : offset + glyphWidth (text ++ more) = extent) :
    ∃ offset', overflowOver limit (text ++ more) offset state =
        overflowOver limit more offset' last ∧ offset' + glyphWidth more = extent := by
  induction hpasses generalizing offset with
  | nil state => exact ⟨offset, rfl, hoffset⟩
  | @cons glyph text state next last hstep _ ih =>
      rw [List.cons_append, glyphWidth_cons, ← Nat.add_assoc] at hoffset
      rw [List.cons_append, overflowOver, hstep]
      exact ih hoffset

/-- The walk finds nothing where the reader succeeds, and it finds the place where the reader
is too deep. -/
structure Agrees (result : Except ReadError (List Value)) (found : Option Nat) : Prop where
  ok (values : List Value) (hresult : result = .ok values) : found = none
  tooDeep (n : Int) (source : Location) (hresult : result = .error ⟨.tooDeep n, source⟩) :
    ∃ offset : Nat, source.pos = offset ∧ found = some offset

/-- The end of a text is not too deep. -/
theorem unfinished_ne_tooDeep (nest : Nest) (ending : Lexer.Ending) (n : Int)
    (source : Location) : nest.unfinished ending ≠ ⟨.tooDeep n, source⟩ := by
  rw [Nest.unfinished]
  intro herror
  split at herror <;> cases herror

theorem agrees_nil {reader : TokenReader} {text : List Glyph} {fault : Option Lexer.Fault}
    (hcuts : Lexer.Cuts text [] fault) (hfault : reader.ending.fault = fault) (nest : Nest)
    (found : List Value) (limit offset : Nat) (state : State) :
    Agrees (TokenReader.readAllOver reader [] nest found).1
      (overflowOver limit text offset state) := by
  constructor
  · intro values hresult
    cases hcuts with
    | ended hlexeme =>
        -- Only white space is left, and that opens nothing.
        have hblank : text.dropWhile (Glyph.satisfies isBlank) = [] :=
          Lexer.dropWhile_of_ended hlexeme
        rw [List.dropWhile_eq_nil_iff] at hblank
        have hopens : ∀ c, isBlank c = false → ∀ glyph ∈ text, glyph.isChar c = false := by
          intro c hc glyph hmem
          rw [Bool.eq_false_iff]
          intro hchar
          have hglyph := hblank glyph hmem
          rw [Grammar.Rule.eq_of_isChar hchar] at hglyph
          exact absurd hglyph (Bool.eq_false_iff.mp hc)
        have hnone : overflowOver limit [] offset state = none := rfl
        exact overflowOver_append hnone fun glyph hmem =>
          ⟨hopens '(' (by decide) glyph hmem, hopens '\'' (by decide) glyph hmem⟩
    | stopped hlexeme => simp [TokenReader.readAllOver, hfault] at hresult
  · intro n source hresult
    rw [TokenReader.readAllOver] at hresult
    split at hresult
    · cases hresult
    · exact absurd (Except.error.inj hresult) (unfinished_ne_tooDeep nest _ n source)

/-- Inside of the same forms, the reader and the walk come to the limit at one place. -/
theorem agrees_readAllOver {reader : TokenReader} (hlimit : 0 < reader.limit)
    {extent : Nat} {text : List Glyph} {tokens : List Token} {fault : Option Lexer.Fault}
    (hcuts : Lexer.Cuts text tokens fault) (hfault : reader.ending.fault = fault)
    (hplaced : Lexer.Placed extent text tokens) (hseparated : Lexer.Separated text)
    {nest : Nest} (hdepth : nest.depth = nest.forms.length) {state : State}
    (hfollows : Follows (Nest.shape nest.forms) text state) {offset : Nat}
    (hoffset : offset + glyphWidth text = extent) (found : List Value) :
    Agrees (TokenReader.readAllOver reader tokens nest found).1
      (overflowOver reader.limit.toNat text offset state) := by
  induction hcuts generalizing nest state offset found with
  | ended hlexeme => exact agrees_nil (.ended hlexeme) hfault nest found _ offset state
  | stopped hlexeme => exact agrees_nil (.stopped hlexeme) hfault nest found _ offset state
  | @token text taken rest token tokens fault hlexeme _ _ ih =>
      obtain ⟨hblanks, hnumber, hseparated⟩ := hseparated.of_token hlexeme
      obtain ⟨hpos, hplaced⟩ := hplaced.of_token hlexeme
      obtain ⟨c, behind, hdrop, hstarts⟩ := Lexer.starts_of_lexeme hlexeme
      have hblank : isBlank c = false := eq_false_of_dropWhile hdrop
      -- The walk passes the white space in front of the token.
      obtain ⟨front, hpasses, hfront⟩ := hfollows.blanks hblanks
      have hsplit := List.takeWhile_append_dropWhile (p := Glyph.satisfies isBlank) (l := text)
      rw [hdrop] at hfront hsplit hpos
      rw [← hsplit] at hoffset ⊢
      obtain ⟨start, hwalk, hstart⟩ := hpasses.overflowOver_append hoffset
      rw [hwalk]
      -- Where the reader goes on, the walk passes the token as well.
      have hnext : ∀ (after : Nest) (found : List Value), after.depth = after.forms.length →
          Nest.Reshapes reader.limit token.kind (Nest.shape nest.forms)
            (Nest.shape after.forms) →
          Agrees (TokenReader.readAllOver reader tokens after found).1
            (overflowOver reader.limit.toNat (.char c :: behind) start front) := by
        intro after found hafter hreshapes
        obtain ⟨last, hpasses, hlast⟩ := hfront.starts hblank hstarts hnumber hreshapes
        obtain ⟨more, rfl, rfl⟩ := hstarts.append
        obtain ⟨offset, hwalk, hoffset⟩ := hpasses.overflowOver_append hstart
        rw [List.cons_append] at hwalk
        rw [hwalk]
        exact ih hfault hplaced hseparated hafter hlast hoffset found
      have hturn := Nest.reshapes_step hlimit token hdepth
      rw [TokenReader.readAllOver_cons]
      cases hstep : nest.step reader.limit token with
      | more after =>
          rw [hstep] at hturn
          exact hnext after found hturn.1 hturn.2
      | done value =>
          rw [hstep] at hturn
          exact hnext .top (value :: found) rfl hturn
      | fault error =>
          rw [hstep] at hturn
          refine ⟨nofun, fun n source hresult => ?_⟩
          obtain ⟨rfl, hkind, hdeep⟩ := hturn n source (Except.error.inj hresult)
          refine ⟨start, by omega, ?_⟩
          rw [overflowOver, hfront.step_overflow hstarts hkind (by omega)]

end Nesting

namespace Reader

/-- Both readers enforce one limit on nesting.  If the token reader is too deep somewhere in
a text, the walk along the glyphs finds the same place, and if the token reader reads the
text, the walk finds none, provided that the white space in front of tokens is ASCII and that
no number runs into a comment with a parenthesis or quote in it. -/
theorem nesting_limits_agree (file text : Bytes) (limit : Int) (hlimit : 0 < limit)
    (hseparated : Lexer.Separated (glyphs text)) :
    let result := (TokenReader.ofBytes file text limit).readAll.1
    (∀ source, result = .error ⟨.tooDeep limit, source⟩ →
        ∃ offset : Nat, source.pos = offset ∧
          Nesting.overflow? limit (glyphs text) = some offset) ∧
      ∀ values, result = .ok values → Nesting.overflow? limit (glyphs text) = none := by
  intro result
  obtain ⟨_, hcuts, _⟩ := Lexer.tokens_ofBytes file text
  have hfollows : Nesting.Follows (Nest.shape Nest.top.forms) (glyphs text) .top :=
    Nesting.follows_between [] (glyphs text)
  have hagrees : Nesting.Agrees result (Nesting.overflow? limit (glyphs text)) := by
    rw [Nesting.overflow?, if_neg (by omega)]
    exact Nesting.agrees_readAllOver hlimit hcuts rfl (Lexer.placed_tokens file text) hseparated
      rfl hfollows (Nat.zero_add _) []
  exact ⟨hagrees.tooDeep limit, hagrees.ok⟩

/-- A list with a number, a comment and a quote in it. -/
def commentedText : Bytes :=
  utf8 "(5 ;(\n'a)"

theorem separated_commentedText : Lexer.Separated (glyphs commentedText) := by
  have hglyphs : glyphs commentedText =
      ['(', '5', ' ', ';', '(', '\n', '\'', 'a', ')'].map Glyph.char := by decide +kernel
  rw [hglyphs]
  refine .token rfl (by decide) nofun ?_
  refine .token rfl (by decide) (fun _ => rfl) ?_
  refine .token rfl (by decide) nofun ?_
  refine .token rfl (by decide) nofun ?_
  refine .token rfl (by decide) nofun ?_
  refine .token rfl (by decide) nofun ?_
  exact .ended rfl

theorem nesting_limits_agree_commented :
    Nesting.overflow? 1 (glyphs commentedText) = some 6 ∧
      Nesting.overflow? 2 (glyphs commentedText) = none := by
  obtain ⟨htooDeep, _⟩ := nesting_limits_agree (utf8 "a") commentedText 1 (by decide)
    separated_commentedText
  obtain ⟨_, hok⟩ := nesting_limits_agree (utf8 "a") commentedText 2 (by decide)
    separated_commentedText
  obtain ⟨offset, hpos, hoverflow⟩ := htooDeep ⟨utf8 "a", 6, 2, 1⟩ (by decide +kernel)
  have hoffset : offset = 6 := by
    simp only at hpos
    omega
  rw [hoffset] at hoverflow
  refine ⟨hoverflow, hok [.ofList [.int 5, Value.quote (.symbol ⟨utf8 "A"⟩)]] ?_⟩
  decide +kernel

/-- The walk misses a list behind a no-break space, which is a word for it and ends the
quote.  It counts a parenthesis in a comment that a number runs into. -/
theorem nesting_limits_differ :
    (isWellFormed (utf8 "'\u00a0(") = true ∧
        (TokenReader.ofBytes (utf8 "a") (utf8 "'\u00a0(") 1).readAll.1 =
          .error ⟨.tooDeep 1, ⟨utf8 "a", 3, 1, 3⟩⟩ ∧
        Nesting.overflow? 1 (glyphs (utf8 "'\u00a0(")) = none) ∧
      isWellFormed (utf8 "5;((") = true ∧
        (TokenReader.ofBytes (utf8 "a") (utf8 "5;((") 1).readAll.1 = .ok [.int 5] ∧
        Nesting.overflow? 1 (glyphs (utf8 "5;((")) = some 3 := by
  decide +kernel

end Reader

end MiniLisp
