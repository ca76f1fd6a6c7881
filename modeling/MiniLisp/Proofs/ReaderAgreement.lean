import Mathlib.Data.List.TakeWhile
import MiniLisp.Proofs.GrammarWalk
import MiniLisp.Proofs.ReaderSimulation
import MiniLisp.Reader

/-!
The two readers agree: on every plain text that cannot nest beyond the limit, both
read the same values or both fail to read it, and so for the first expression alone.
-/

namespace MiniLisp

namespace TokenReader

def OnlyComments (tokens : List Token) : Prop :=
  ∀ token ∈ tokens, token.kind = .comment

instance (tokens : List Token) : Decidable (OnlyComments tokens) :=
  inferInstanceAs (Decidable (∀ token ∈ tokens, token.kind = .comment))

@[simp]
theorem onlyComments_cons {token : Token} {tokens : List Token} :
    OnlyComments (token :: tokens) ↔ token.kind = .comment ∧ OnlyComments tokens :=
  List.forall_mem_cons

theorem readAllOver_onlyComments (reader : TokenReader) {tokens : List Token}
    (hcomments : OnlyComments tokens) (hfault : reader.ending.fault = none)
    (found : List Value) :
    (readAllOver reader tokens .top found).1 = .ok found.reverse := by
  induction tokens with
  | nil => simp [readAllOver, Nest.top, hfault]
  | cons token tokens ih =>
      rw [readAllOver_cons, Nest.step_comment (hcomments token (by simp))]
      exact ih fun later hmem => hcomments later (by simp [hmem])

/-- Reading all expressions is reading one and then all others, unless nothing is open
and nothing follows. -/
theorem readAllOver_eq_readOver (reader : TokenReader) {tokens : List Token} {nest : Nest}
    (hmore : ¬(nest.forms = [] ∧ OnlyComments tokens ∧ reader.ending.fault = none))
    (found : List Value) :
    (readAllOver reader tokens nest found).1 =
      match reader.readOver tokens nest with
      | (.ok value, after) => (readAllOver reader after.ahead .top (value :: found)).1
      | (.error error, _) => .error error := by
  induction tokens generalizing nest with
  | nil =>
      have hend : ¬(nest.forms.isEmpty ∧ reader.ending.fault = none) := by
        rintro ⟨hforms, hfault⟩
        exact hmore ⟨List.isEmpty_iff.mp hforms, by simp [OnlyComments], hfault⟩
      simp only [readAllOver, readOver, if_neg hend]
  | cons token tokens ih =>
      rw [readAllOver, readOver]
      cases hstep : nest.step reader.limit token with
      | done value => rfl
      | fault error => rfl
      | more after =>
          apply ih
          rintro ⟨hforms, hcomments, hfault⟩
          by_cases hkind : token.kind = .comment
          · rw [Nest.step_comment hkind] at hstep
            cases hstep
            exact hmore ⟨hforms, onlyComments_cons.mpr ⟨hkind, hcomments⟩, hfault⟩
          · exact (Nest.depth_step_le hkind hstep).2 hforms

theorem readOver_behind (reader : TokenReader) (taken : Token) (left tokens : List Token)
    (nest : Nest) :
    ((reader.behind taken left).readOver tokens nest).1 = (reader.readOver tokens nest).1 := by
  induction tokens generalizing nest with
  | nil => rfl
  | cons token tokens ih =>
      simp only [readOver, behind]
      split
      · exact ih _
      · rfl
      · rfl

/-- The first expression is what one reads from the first token on, unless there is
nothing but comments. -/
theorem readFirst_eq (reader : TokenReader) {tokens : List Token}
    (hahead : reader.ahead = tokens) (hfinal : ∀ token ∈ tokens, token.kind.isFinal = false)
    (hhonest : reader.ending.Honest) :
    reader.readFirst.1 =
      if OnlyComments tokens ∧ reader.ending.fault = none then .ok .empty
      else (reader.readOver tokens .top).1 := by
  induction tokens generalizing reader with
  | nil =>
      have hskip : reader.skipComments = reader := by
        rw [skipComments, hahead, skipCommentsOver]
      have hend : reader.peek.kind = .endOfInput ↔ reader.ending.fault = none := by
        rw [peek, hahead]
        exact hhonest.symm
      simp only [readFirst, hskip, readExpression, hahead]
      by_cases hfault : reader.ending.fault = none
      · rw [if_pos (hend.mpr hfault), if_pos ⟨by simp [OnlyComments], hfault⟩]
      · rw [if_neg (mt hend.mp hfault), if_neg (mt And.right hfault)]
  | cons token tokens ih =>
      by_cases hcomment : token.kind = .comment
      · have hskip : reader.skipComments = (reader.behind token tokens).skipComments := by
          simp only [skipComments, hahead, skipCommentsOver, if_pos hcomment]
          rfl
        have hread : reader.readFirst = (reader.behind token tokens).readFirst := by
          rw [readFirst, readFirst, hskip]
        rw [hread, ih (reader.behind token tokens) rfl
          (fun later hmem => hfinal later (by simp [hmem])) hhonest, readOver_behind]
        rw [readOver, Nest.step_comment hcomment]
        simp only [onlyComments_cons, hcomment, true_and]
        rfl
      · have hkind : token.kind ≠ .endOfInput := by
          intro hkind
          simpa [hkind, Token.Kind.isFinal] using hfinal token (by simp)
        have hskip : reader.skipComments = reader := by
          rw [skipComments, hahead, skipCommentsOver, if_neg hcomment]
        have hpeek : reader.peek = token := by rw [peek, hahead]
        have hnot : ¬OnlyComments (token :: tokens) := by simp [hcomment]
        simp only [readFirst, hskip, hpeek, if_neg hkind, readExpression, hahead,
          if_neg (mt And.left hnot)]

end TokenReader

/-- A plain text is a gap exactly if its tokens are comments and the stream ends
without a fault. -/
theorem skipGaps_eq_nil_iff {text : List Glyph} {tokens : List Token}
    {fault : Option Lexer.Fault} (hcuts : Lexer.Cuts text tokens fault) (hplain : Plain text) :
    Grammar.skipGaps text = [] ↔ TokenReader.OnlyComments tokens ∧ fault = none := by
  induction hcuts with
  | ended hlexeme =>
      simp [Grammar.skipGaps_ended hplain hlexeme, TokenReader.OnlyComments]
  | stopped hlexeme =>
      obtain ⟨behind, hskip, _⟩ := Grammar.skipGaps_stopped hplain hlexeme
      simp [hskip]
  | @token text taken rest token tokens fault hlexeme htext hrest ih =>
      have ih := ih (hplain.of_suffix (Lexer.lexeme_suffix hlexeme).1)
      by_cases hcomment : token.kind = .comment
      · rw [Grammar.skipGaps_comment hplain (hcomment ▸ hlexeme), ih]
        simp [hcomment]
      · obtain ⟨c, behind, hskip, _⟩ := Grammar.skipGaps_lexeme hplain hlexeme hcomment
        simp [hskip, hcomment]

/-- Either both readers give the same result, or both fail. -/
inductive SameResult {α ε ε' : Type} : Except ε α → Except ε' α → Prop
  | ok (result : α) : SameResult (.ok result) (.ok result)
  | error (failure : ε) (failure' : ε') : SameResult (.error failure) (.error failure')

theorem SameResult.mapError {α ε ε' ε'' : Type} {result : Except ε α} {result' : Except ε' α}
    (hsame : SameResult result result') (f : ε' → ε'') :
    SameResult result (result'.mapError f) := by
  cases hsame with
  | ok result => exact .ok result
  | error failure failure' => exact .error failure _

theorem SameResult.of_ok {α ε ε' : Type} {result : Except ε α} {value : α}
    (hsame : SameResult result (.ok value : Except ε' α)) : result = .ok value := by
  cases hsame
  rfl

theorem SameResult.of_error {α ε ε' : Type} {result : Except ε α} {failure : ε'}
    (hsame : SameResult result (.error failure : Except ε' α)) :
    ∃ failure', result = .error failure' := by
  cases hsame with
  | error failure' => exact ⟨failure', rfl⟩

namespace Scannerless

theorem next?_gap {fuel : Nat} {text : List Glyph} (hplain : Plain text)
    (hgap : Grammar.skipGaps text = []) : next? fuel text = .ok none := by
  have htrivia : skipTrivia text = [] := by
    rw [skipTrivia, skipTriviaOver_eq_skipGapsOver hplain]
    exact hgap
  simp [next?, htrivia]

/-- Where something follows, the next expression is what the grammar matches. -/
theorem next?_match (fuel : Nat) {text : List Glyph} (hplain : Plain text)
    (hgap : Grammar.skipGaps text ≠ []) :
    (∀ value rest, Grammar.matchOver fuel [] text = some (.ok value, rest) →
        next? fuel text = .ok (some (value, rest))) ∧
      ((∀ node rest, Grammar.matchOver fuel [] text = some (node, rest) →
          ∃ fault, node = .error fault) →
        ∃ fault, next? fuel text = .error fault) := by
  have htrivia : skipTrivia text ≠ [] := by
    rw [skipTrivia, skipTriviaOver_eq_skipGapsOver hplain]
    exact hgap
  rw [next?]
  split
  · next hnil => exact absurd hnil htrivia
  · constructor
    · intro value rest hmatch
      simp only [hmatch]
    · intro hfault
      split
      · exact ⟨_, rfl⟩
      · exact ⟨_, rfl⟩
      · next value rest hmatch =>
          obtain ⟨fault, hnode⟩ := hfault _ _ hmatch
          cases hnode

/-- Where something follows, both readers take the same expression off a plain text, or
neither finds one; where the token reader wants more text, the grammar matches nothing. -/
theorem next?_readOver (reader : TokenReader) {text : List Glyph} {tokens : List Token}
    (hcuts : Lexer.Cuts text tokens reader.ending.fault) (hplain : Plain text)
    (hroomy : Roomy reader.limit 0 text) {fuel : Nat} (hfuel : text.length < fuel)
    (hgap : Grammar.skipGaps text ≠ []) :
    (∃ value after rest, reader.readOver tokens .top = (.ok value, after) ∧
        next? fuel text = .ok (some (value, rest)) ∧
        Lexer.Cuts rest after.ahead reader.ending.fault ∧ rest <:+ text ∧
        rest.length < text.length) ∨
      ∃ error after fault, reader.readOver tokens .top = (.error error, after) ∧
        next? fuel text = .error fault ∧
        (error.fault.isIncomplete = true → Grammar.matchOver fuel [] text = none) := by
  obtain ⟨hvalue, hfailed⟩ := next?_match fuel hplain hgap
  have hsame := sameExpression_readOver reader hcuts hplain (.aligned .top) hroomy hfuel
  change SameExpression text reader.ending.fault (reader.readOver tokens .top) _ at hsame
  generalize hread : reader.readOver tokens .top = answer at hsame
  generalize hmatch : Grammar.matchOver fuel [] text = result at hsame
  cases hsame with
  | @value value after rest hcuts' hsuffix hlength =>
      exact .inl ⟨value, after, rest, rfl, hvalue value rest hmatch, hcuts', hsuffix, hlength⟩
  | @fault error after result hfault hincomplete =>
      obtain ⟨fault, hnext⟩ := hfailed (hmatch ▸ hfault)
      exact .inr ⟨error, after, fault, rfl, hnext, hincomplete⟩

/-- Both readers read the same expressions to the end of a plain text. -/
theorem sameResult_readAllOver (reader : TokenReader) {text : List Glyph}
    {tokens : List Token} (hcuts : Lexer.Cuts text tokens reader.ending.fault)
    (hplain : Plain text) (hroomy : Roomy reader.limit 0 text) {fuel count : Nat}
    (hfuel : text.length < fuel) (hcount : text.length < count) (found : List Value) :
    SameResult (reader.readAllOver tokens .top found).1
      (readAllOver fuel count found text) := by
  induction count generalizing text tokens found with
  | zero => exact absurd hcount (Nat.not_lt_zero _)
  | succ count ih =>
      rw [readAllOver]
      by_cases hgap : Grammar.skipGaps text = []
      · obtain ⟨hcomments, hfault⟩ := (skipGaps_eq_nil_iff hcuts hplain).mp hgap
        rw [next?_gap hplain hgap, reader.readAllOver_onlyComments hcomments hfault]
        exact .ok _
      · have hmore : ¬(Nest.top.forms = [] ∧ TokenReader.OnlyComments tokens ∧
            reader.ending.fault = none) :=
          fun hnone => hgap ((skipGaps_eq_nil_iff hcuts hplain).mpr hnone.2)
        rw [reader.readAllOver_eq_readOver hmore]
        rcases next?_readOver reader hcuts hplain hroomy hfuel hgap with
          ⟨value, after, rest, hread, hnext, hcuts', hsuffix, hlength⟩ |
            ⟨error, after, fault, hread, hnext, _⟩
        · rw [hread, hnext]
          exact ih hcuts' (hplain.of_suffix hsuffix) (hroomy.of_suffix hsuffix)
            (by omega) (by omega) (value :: found)
        · rw [hread, hnext]
          exact .error _ _

/-- Both readers read the same first expression of a plain text. -/
theorem sameResult_readFirst (reader : TokenReader) {text : List Glyph}
    (hcuts : Lexer.Cuts text reader.ahead reader.ending.fault)
    (hhonest : reader.ending.Honest) (hplain : Plain text)
    (hroomy : Roomy reader.limit 0 text) {fuel : Nat} (hfuel : text.length < fuel)
    (locate : FaultAt → ReadError) :
    SameResult reader.readFirst.1
      (match next? fuel text with
      | .error fault => .error (locate fault)
      | .ok none => .ok Value.empty
      | .ok (some (value, _)) => .ok value) := by
  rw [reader.readFirst_eq rfl hcuts.isFinal hhonest]
  by_cases hgap : Grammar.skipGaps text = []
  · rw [if_pos ((skipGaps_eq_nil_iff hcuts hplain).mp hgap), next?_gap hplain hgap]
    exact .ok _
  · rw [if_neg (mt (skipGaps_eq_nil_iff hcuts hplain).mpr hgap)]
    rcases next?_readOver reader hcuts hplain hroomy hfuel hgap with
      ⟨value, after, rest, hread, hnext, _⟩ | ⟨error, after, fault, hread, hnext, _⟩
    · rw [hread, hnext]
      exact .ok _
    · rw [hread, hnext]
      exact .error _ _

end Scannerless

/-! ### The checks before reading -/

namespace Nesting

/-- A step that does not overflow, to at most the depth `bound`. -/
def Step.Within (bound : Nat) : Step → Prop
  | .next state => state.depth ≤ bound
  | .overflow => False
  | .unmatched => True

theorem depth_endExpression_le (state : State) : state.endExpression.depth ≤ state.depth := by
  rw [State.endExpression]
  split
  · exact Nat.sub_le _ _
  · exact Nat.sub_le _ _

theorem Step.Within.mono {bound bound' : Nat} {step : Step} (hwithin : step.Within bound)
    (hle : bound ≤ bound') : step.Within bound' := by
  cases step with
  | next state => exact Nat.le_trans hwithin hle
  | overflow => exact hwithin
  | unmatched => trivial

/-- How much deeper a glyph can lead. -/
def rise (glyph : Glyph) : Nat :=
  if glyph.opensForm then 1 else 0

theorem within_between {limit : Nat} {state : State} {glyph : Glyph}
    (hroom : state.depth + rise glyph ≤ limit) :
    (between limit state glyph).Within (state.depth + rise glyph) := by
  have hstay : state.depth ≤ state.depth + rise glyph := Nat.le_add_right _ _
  rw [between]
  split_ifs with hblank hcomment hquote hopen hover hopen' hover hclose
  · exact hstay
  · exact hstay
  · exact hstay
  · simp only [rise, Glyph.opensForm, hopen, Bool.true_or, ↓reduceIte] at hroom
    omega
  · simp [rise, Glyph.opensForm, hopen, Step.Within, State.openList]
  · simp only [rise, Glyph.opensForm, hopen', Bool.or_true, ↓reduceIte] at hroom
    omega
  · simp only [rise, Glyph.opensForm, hopen', Bool.or_true, ↓reduceIte, Step.Within,
      State.openQuote]
    split <;> exact Nat.le_refl _
  · split
    · trivial
    · refine Nat.le_trans (depth_endExpression_le _) ?_
      exact Nat.le_trans (Nat.sub_le _ _) hstay
  · exact hstay

theorem within_step {limit : Nat} {state : State} {glyph : Glyph}
    (hroom : state.depth + rise glyph ≤ limit) :
    (step limit state glyph).Within (state.depth + rise glyph) := by
  have hstay : state.depth ≤ state.depth + rise glyph := Nat.le_add_right _ _
  have hended := depth_endExpression_le state
  rw [step]
  split
  · exact within_between hroom
  · split
    · exact (within_between (Nat.le_trans (Nat.add_le_add_right hended _) hroom)).mono
        (Nat.add_le_add_right hended _)
    · exact hstay
  · rw [Step.Within]
    split <;> exact hstay
  · exact hstay
  · split
    · exact Nat.le_trans hended hstay
    · exact hstay

/-- No text overflows that cannot open enough forms. -/
theorem overflowOver_eq_none {limit : Nat} {text : List Glyph} {state : State}
    (hroom : state.depth + text.countP Glyph.opensForm ≤ limit) (offset : Nat) :
    overflowOver limit text offset state = none := by
  induction text generalizing state offset with
  | nil => rfl
  | cons glyph rest ih =>
      have hcount : (glyph :: rest).countP Glyph.opensForm =
          rest.countP Glyph.opensForm + rise glyph := List.countP_cons
      have hstep : (step limit state glyph).Within (state.depth + rise glyph) :=
        within_step (by omega)
      rw [overflowOver]
      cases hnext : step limit state glyph with
      | next after =>
          rw [hnext] at hstep
          have hdepth : after.depth ≤ state.depth + rise glyph := hstep
          exact ih (by omega) _
      | overflow =>
          rw [hnext] at hstep
          exact hstep.elim
      | unmatched => rfl

theorem overflow?_eq_none {limit : Int} {text : List Glyph} (hroomy : Roomy limit 0 text) :
    overflow? limit text = none := by
  rw [overflow?]
  split_ifs with hlimit
  · rfl
  · have hroom := hroomy (by omega)
    refine overflowOver_eq_none ?_ 0
    change 0 + text.countP Glyph.opensForm ≤ limit.toNat
    omega

end Nesting

theorem plain_glyphs {text : Bytes} (hformed : isWellFormed text = true)
    (hblanks : ∀ c, Glyph.char c ∈ glyphs text → PlainChar c) : Plain (glyphs text) := by
  intro glyph hmem
  have hvalid := List.all_eq_true.mp hformed glyph hmem
  cases glyph with
  | char c => exact ⟨c, rfl, hblanks c hmem⟩
  | stray byte => simp [Glyph.isValid, Glyph.satisfies] at hvalid

theorem roomy_of_countP {text : List Glyph}
    (hforms : text.countP (fun glyph => glyph.isChar '(' || glyph.isChar '\'') ≤ 10000) :
    Roomy TokenReader.defaultLimit 0 text := by
  intro _
  change ((0 : Nat) + text.countP Glyph.opensForm : Int) ≤ 10000
  change text.countP Glyph.opensForm ≤ 10000 at hforms
  omega

theorem Scannerless.check_eq_ok {limit : Int} {file text : Bytes}
    (hplain : Plain (glyphs text)) (hroomy : Roomy limit 0 (glyphs text)) :
    check limit file text = .ok () := by
  have hvalid : (glyphs text).dropWhile Glyph.isValid = [] := by
    rw [List.dropWhile_eq_nil_iff]
    intro glyph hmem
    obtain ⟨c, rfl, _⟩ := hplain glyph hmem
    rfl
  simp only [check, hvalid, Nesting.overflow?_eq_none hroomy]

/-! ### Both readers -/

/-- Either both readers succeed with the same result, or both fail because the text
cannot be read. -/
inductive Agree {α : Type} : Except Failure α → Except Failure α → Prop
  | ok (result : α) : Agree (.ok result) (.ok result)
  | error {failure failure' : Failure} (hleft : failure.conditionTag = utf8 "parse-error")
      (hright : failure'.conditionTag = utf8 "parse-error") :
      Agree (.error failure) (.error failure')

theorem SameResult.agree {α : Type} {result result' : Except ReadError α}
    (hsame : SameResult result result') :
    Agree (result.mapError .ofReadError) (result'.mapError .ofReadError) := by
  cases hsame with
  | ok result => exact .ok result
  | error failure failure' => exact .error rfl rfl

namespace Reader

theorem sameResult_readAll {file text : Bytes} (hplain : Plain (glyphs text))
    (hroomy : Roomy TokenReader.defaultLimit 0 (glyphs text)) :
    SameResult (Reader.tokens.readAll file text) (Reader.scannerless.readAll file text) := by
  obtain ⟨_, hcuts, _⟩ := Lexer.tokens_ofBytes file text
  have hsame := Scannerless.sameResult_readAllOver
    (TokenReader.ofBytes file text TokenReader.defaultLimit) hcuts hplain hroomy
    (Nat.lt_succ_self _) (Nat.lt_succ_self _) []
  simp only [Reader.readAll, Scannerless.readAll, Scannerless.check_eq_ok hplain hroomy]
  exact hsame.mapError (Scannerless.FaultAt.error file text)

theorem sameResult_readFirst {text : Bytes} (hplain : Plain (glyphs text))
    (hroomy : Roomy TokenReader.defaultLimit 0 (glyphs text)) :
    SameResult (Reader.tokens.readFirst text) (Reader.scannerless.readFirst text) := by
  obtain ⟨_, hcuts, hhonest⟩ := Lexer.tokens_ofBytes defaultName text
  simp only [Reader.readFirst, Scannerless.readFirst, Scannerless.check_eq_ok hplain hroomy]
  exact Scannerless.sameResult_readFirst
    (TokenReader.ofBytes defaultName text TokenReader.defaultLimit) hcuts hhonest hplain
    hroomy (Nat.lt_succ_self _) (Scannerless.FaultAt.error defaultName text)

/-- The two readers accept the same programs and build the same values, from every
well-formed text whose only white space is spaces, tabs and line ends and which has not
enough parentheses and quotes to nest too deeply.  Where they do not succeed, both fail
because the text cannot be read.  The same holds of the first expression alone.  What
the second reader matches, wherever it is in the text, is what the rules of the grammar
match there. -/
theorem readers_agree (file text : Bytes) (hformed : isWellFormed text = true)
    (hblanks : ∀ c, Glyph.char c ∈ glyphs text → isBlank c = true →
      c = ' ' ∨ c = '\t' ∨ c = '\r' ∨ c = '\n')
    (hforms : (glyphs text).countP (fun glyph => glyph.isChar '(' || glyph.isChar '\'') ≤
      10000) :
    Agree (Reader.tokens.readProgram file (.ofBytes text))
        (Reader.scannerless.readProgram file (.ofBytes text)) ∧
      Agree (Reader.tokens.read text) (Reader.scannerless.read text) ∧
      ∀ behind : List Glyph, behind <:+ glyphs text →
        Grammar.matchOver ((glyphs text).length + 1) [] behind =
          Grammar.Rule.expr ((glyphs text).length + 1) behind := by
  have hplain : Plain (glyphs text) := plain_glyphs hformed hblanks
  have hroomy : Roomy TokenReader.defaultLimit 0 (glyphs text) := by
    intro _
    change ((0 : Nat) + (glyphs text).countP Glyph.opensForm : Int) ≤ 10000
    change (glyphs text).countP Glyph.opensForm ≤ 10000 at hforms
    omega
  refine ⟨(sameResult_readAll hplain hroomy).agree, (sameResult_readFirst hplain hroomy).agree,
    ?_⟩
  intro behind hbehind
  exact Grammar.matchOver_eq_expr (Nat.lt_succ_of_le hbehind.length_le)

/-- A dotted list, a number glued to a symbol, and a comment. -/
theorem readers_agree_glued :
    isWellFormed (utf8 "('a . b) 5abc ;x") = true ∧
      Agree (Reader.tokens.readProgram defaultName (.ofBytes (utf8 "('a . b) 5abc ;x")))
        (Reader.scannerless.readProgram defaultName (.ofBytes (utf8 "('a . b) 5abc ;x"))) ∧
      Agree (Reader.tokens.read (utf8 "('a . b) 5abc ;x"))
        (Reader.scannerless.read (utf8 "('a . b) 5abc ;x")) ∧
      ∀ behind : List Glyph, behind <:+ glyphs (utf8 "('a . b) 5abc ;x") →
        Grammar.matchOver ((glyphs (utf8 "('a . b) 5abc ;x")).length + 1) [] behind =
          Grammar.Rule.expr ((glyphs (utf8 "('a . b) 5abc ;x")).length + 1) behind := by
  have hformed : isWellFormed (utf8 "('a . b) 5abc ;x") = true := by decide +kernel
  have hspaces : ∀ glyph ∈ glyphs (utf8 "('a . b) 5abc ;x"),
      glyph.satisfies (fun c => !isBlank c || c == ' ') = true := by decide +kernel
  refine ⟨hformed, readers_agree defaultName _ hformed ?_ (by decide +kernel)⟩
  intro c hmem hblank
  have hspace := hspaces (.char c) hmem
  simp only [Glyph.satisfies, hblank, Bool.not_true, Bool.false_or, beq_iff_eq] at hspace
  exact .inl hspace

end Reader

end MiniLisp
