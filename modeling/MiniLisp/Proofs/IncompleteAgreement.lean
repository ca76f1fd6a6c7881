import MiniLisp.Proofs.CompletionWalk
import MiniLisp.Proofs.ReaderAgreement

/-!
The readers agree on which texts are incomplete.  Where the token reader wants more text,
what completes the text for the scannerless reader completes it for both, unless a number
runs into a comment or a dot; and what is incomplete for the scannerless reader is so for
the token reader.
-/

namespace MiniLisp

/-! ### Texts that complete the open forms -/

namespace Nest

/-- The expression goes on with a text, and nothing is left open behind it. -/
def Completes (limit : Int) (nest : Nest) (text : List Glyph) : Prop :=
  ∃ tokens, Lexer.Cuts text tokens none ∧
    ∀ reader : TokenReader, reader.limit = limit → reader.ending.fault = none → ∀ found,
      ∃ values, (reader.readAllOver tokens nest found).1 = .ok values

theorem Completes.congr {limit : Int} {nest : Nest} {text text' : List Glyph}
    (hcompletes : Completes limit nest text) (hlexeme : Lexer.lexeme text = Lexer.lexeme text') :
    Completes limit nest text' := by
  obtain ⟨tokens, hcuts, hread⟩ := hcompletes
  exact ⟨tokens, hcuts.congr hlexeme, hread⟩

theorem Completes.of_token {limit : Int} {nest after : Nest} {text taken rest : List Glyph}
    {token : Token} (hcompletes : Completes limit after rest)
    (hlexeme : Lexer.lexeme text = .token token.kind taken rest)
    (htext : token.text = glyphBytes taken) (hstep : nest.step limit token = .more after) :
    Completes limit nest text := by
  obtain ⟨tokens, hcuts, hread⟩ := hcompletes
  refine ⟨token :: tokens, .token hlexeme htext hcuts, fun reader hlimit hfault found => ?_⟩
  rw [TokenReader.readAllOver_cons, hlimit, hstep]
  exact hread reader hlimit hfault found

theorem exists_cuts_closers (count : Nat) :
    ∃ tokens, Lexer.Cuts ((Lexer.closers count).map .char) tokens none := by
  induction count with
  | zero => exact ⟨[], .ended rfl⟩
  | succ count ih =>
      obtain ⟨tokens, hcuts⟩ := ih
      have hlexeme : Lexer.lexeme ((Lexer.closers (count + 1)).map .char) =
          .token (Token.mk .closeParen (utf8 ")") default).kind [.char ')']
            ((Lexer.closers count).map .char) := rfl
      exact ⟨_ :: tokens, .token hlexeme (by decide) hcuts⟩

theorem completes_closers {limit : Int} {nest : Nest} (hsettled : Settled nest.forms) :
    Completes limit nest ((Lexer.closers (lists nest.forms)).map .char) := by
  obtain ⟨tokens, hcuts⟩ := exists_cuts_closers (lists nest.forms)
  obtain ⟨hkinds, hlength, _⟩ := hcuts.closers
  have hclosable : (Progress.more nest).Closable tokens.length := ⟨hsettled, hlength.symm⟩
  exact ⟨tokens, hcuts, fun reader _ hfault found =>
    TokenReader.continueAll_closers hfault hkinds hclosable found⟩

/-- Where an expression is expected, a token with a value and then the parentheses complete
what is open. -/
theorem completes_value {limit : Int} {nest : Nest} (hexpects : Expects nest.forms)
    {text taken rest : List Glyph} {kind : Token.Kind}
    (hlexeme : Lexer.lexeme text = .token kind taken rest)
    (hrest : Lexer.lexeme rest = Lexer.lexeme ((Lexer.closers (lists nest.forms)).map .char))
    (hclose : kind ≠ .closeParen) (hdot : kind ≠ .dot)
    (hvalue : ∀ token : Token, token.kind = kind → token.text = glyphBytes taken →
      ∃ value, nest.expression limit token = supply nest.depth nest.forms value) :
    Completes limit nest text := by
  obtain ⟨tokens, hcuts⟩ := exists_cuts_closers (lists nest.forms)
  obtain ⟨hkinds, hlength, _⟩ := hcuts.closers
  let token : Token := ⟨kind, glyphBytes taken, default⟩
  obtain ⟨value, hsupply⟩ := hvalue token rfl rfl
  have hstep : nest.step limit token = supply nest.depth nest.forms value :=
    (step_eq_expression hexpects hclose hdot).trans hsupply
  have hcuts' : Lexer.Cuts text (token :: tokens) none :=
    .token hlexeme rfl (hcuts.congr hrest.symm)
  refine ⟨token :: tokens, hcuts', ?_⟩
  rintro reader rfl hfault found
  exact TokenReader.readAllOver_value_closers hfault hstep hkinds hlength found

end Nest

namespace Completion

open Nest (Completes)

/-- At the end of the tokens, the closing text completes what is open. -/
theorem Tracks.completes_ended {limit : Int} {nest : Nest} {state : State} {text : List Glyph}
    (htracks : Tracks nest.forms state text) (hplain : Plain text)
    (hended : Lexer.lexeme text = .ended) :
    0 ≤ (openBehind state text).depth ∧
      Completes limit nest (text ++ closing (openBehind state text)) := by
  have hblank := Lexer.dropWhile_of_ended hended
  have hsplit := List.takeWhile_append_dropWhile (p := Glyph.satisfies isBlank) (l := text)
  rw [hblank, List.append_nil] at hsplit
  have hlast := htracks.blanks hplain
  rw [hblank, hsplit] at hlast
  rw [openBehind]
  generalize text.foldl State.step state = last at hlast
  have hdepth : last.endWord.depth = Nest.lists nest.forms := by
    rw [depth_endWord, hlast.depth]
  refine ⟨by omega, ?_⟩
  rw [closing_of_line hlast.between.mode_ne]
  refine Completes.congr ?_ (Lexer.lexeme_append_line hended _).symm
  rw [closingLine, hdepth, Int.toNat_natCast]
  by_cases hsettled : Nest.Settled nest.forms
  · have hpending : last.endWord.pending = false := by
      rw [Bool.eq_false_iff]
      exact fun hpending => hlast.pending.mp hpending hsettled
    rw [hpending]
    exact Nest.completes_closers hsettled
  · rw [if_pos (hlast.pending.mpr hsettled)]
    have hexpects : Nest.Expects nest.forms := by
      by_contra hclosed
      obtain ⟨opener, done, tail, outer, hforms⟩ := Nest.close_of_not_expects hclosed
      rw [hforms] at hsettled
      exact hsettled trivial
    have hlexeme : ∀ line : List Glyph, Lexer.lexeme (.char 'x' :: .char ' ' :: line) =
        .token .symbol [.char 'x'] (.char ' ' :: line) := fun _ => rfl
    refine Nest.completes_value hexpects (hlexeme _) rfl (by decide) (by decide)
      fun token hkind _ => ?_
    exact ⟨_, by rw [Nest.expression, hkind]⟩

/-- In an open literal, the closing text completes the literal and what is open around it. -/
theorem Tracks.completes_stopped {limit : Int} {nest : Nest} {state : State} {text : List Glyph}
    (htracks : Tracks nest.forms state text) (hplain : Plain text)
    (hopen : Lexer.lexeme text = .stopped .unterminatedString)
    (hexpects : Nest.Expects nest.forms) :
    0 ≤ (openBehind state text).depth ∧
      Completes limit nest (text ++ closing (openBehind state text)) := by
  obtain ⟨behind, hdrop, hliteral⟩ := Lexer.dropWhile_of_unterminated hopen
  have hsplit := List.takeWhile_append_dropWhile (p := Glyph.satisfies isBlank) (l := text)
  have hfront := htracks.blanks hplain
  rw [hdrop] at hfront hsplit
  have hfold : text.foldl State.step state = behind.foldl State.step
      (((text.takeWhile (Glyph.satisfies isBlank)).foldl State.step state).step (.char '"')) := by
    rw [← List.foldl_cons, ← List.foldl_append, hsplit]
  generalize (text.takeWhile (Glyph.satisfies isBlank)).foldl State.step state = front
    at hfront hfold
  rw [step_string (hfront.between.mode_code rfl)] at hfold
  obtain ⟨escaped, hlast, hclosed⟩ :=
    @foldl_open_literal _ _ _ ⟨.string false, front.depth, false, .none⟩ hliteral rfl
  rw [openBehind, hfold, hlast]
  refine ⟨?_, ?_⟩
  · change 0 ≤ front.depth
    rw [hfront.depth]
    exact Int.natCast_nonneg _
  · change Completes limit nest (text ++ closing ⟨.string escaped, front.depth, false, .none⟩)
    rw [closing_of_string rfl, hfront.depth, Int.toNat_natCast]
    obtain ⟨literal, hliteral'⟩ := hclosed
      (.char '\n' :: (List.replicate (Nest.lists nest.forms) ')').map .char)
    obtain ⟨hlexeme, content, hcontent⟩ := Lexer.lexeme_append_closed hdrop hliteral'
    refine Nest.completes_value hexpects hlexeme rfl (by decide) (by decide)
      fun token hkind htext => ?_
    exact ⟨.text content, by rw [Nest.expression, hkind, htext, hcontent]⟩

theorem Tracks.head?_closing {forms : List OpenForm} {state : State} {text : List Glyph}
    (htracks : Tracks forms state text) :
    (closing state.endWord).head? = some (.char '\n') := by
  rw [closing_of_line htracks.between.mode_ne]
  rfl

/-- If the reader wants more text, the closing text completes what is open. -/
theorem Tracks.completes {reader : TokenReader} {text : List Glyph} {tokens : List Token}
    {fault : Option Lexer.Fault} (hcuts : Lexer.Cuts text tokens fault)
    (hfault : reader.ending.fault = fault) (hplain : Plain text) (hspaced : Lexer.Spaced text)
    {nest : Nest} {state : State} (htracks : Tracks nest.forms state text) {error : ReadError}
    (hread : (reader.readOver tokens nest).1 = .error error)
    (hincomplete : error.fault.isIncomplete = true) :
    0 ≤ (openBehind state text).depth ∧
      Completes reader.limit nest (text ++ closing (openBehind state text)) := by
  -- The walk is carried along token by token; what it has found counts only at the end.
  induction hcuts generalizing nest state with
  | ended hlexeme => exact htracks.completes_ended hplain hlexeme
  | @stopped text fault hlexeme =>
      cases hread
      have hending : reader.ending = ⟨reader.ending.token, some fault⟩ := by rw [← hfault]
      rw [hending] at hincomplete
      -- Behind the tail of a list the open literal is a fault that stays.
      by_cases hexpects : Nest.Expects nest.forms
      · rw [Nest.unfinished_lexical hexpects] at hincomplete
        cases fault with
        | strayByte byte => cases hincomplete
        | unterminatedString => exact htracks.completes_stopped hplain hlexeme hexpects
      · obtain ⟨opener, done, tail, outer, hforms⟩ := Nest.close_of_not_expects hexpects
        simp only [Nest.unfinished, hforms] at hincomplete
        cases hincomplete
  | @token text taken rest token tokens fault hlexeme htext hrest ih =>
      obtain ⟨hnumber, hspaced'⟩ := hspaced.of_token hlexeme
      rw [TokenReader.readOver] at hread
      cases hstep : nest.step reader.limit token with
      | done value =>
          rw [hstep] at hread
          cases hread
      | fault error' =>
          rw [hstep] at hread
          cases hread
          rw [Nest.step_fault hstep] at hincomplete
          cases hincomplete
      | more after =>
          rw [hstep] at hread
          obtain ⟨state', hfold, htracks'⟩ := htracks.token hplain hlexeme hnumber hstep
          obtain ⟨hdepth, hcompletes⟩ := ih hfault
            (hplain.of_suffix (Lexer.lexeme_suffix hlexeme).1) hspaced' htracks' hread
          rw [openBehind, hfold]
          refine ⟨hdepth, hcompletes.of_token (Lexer.lexeme_append hlexeme ?_) htext hstep⟩
          rintro rfl
          exact htracks'.head?_closing

/-- Nothing but characters that complete a text. -/
def Fills (text : List Glyph) : Prop :=
  ∀ glyph ∈ text, ∃ c ∈ fillers, glyph = .char c

theorem fills_map {line : List Char} (hline : ∀ c ∈ line, c ∈ fillers) :
    Fills (line.map .char) := by
  intro glyph hmem
  obtain ⟨c, hc, rfl⟩ := List.mem_map.mp hmem
  exact ⟨c, hline c hc, rfl⟩

theorem fills_closing (state : State) : Fills (closing state) := by
  by_cases hmode : ∃ escaped, state.mode = .string escaped
  · obtain ⟨escaped, hmode⟩ := hmode
    have hquote : ∀ c ∈ '"' :: '\n' :: List.replicate state.depth.toNat ')', c ∈ fillers := by
      simp [fillers]
    rw [closing_of_string hmode]
    refine List.forall_mem_append.mpr ⟨?_, fills_map hquote⟩
    cases escaped <;> simp [filler, fillers]
  · have hlater : ∀ c ∈ '\n' :: closingLine state, c ∈ fillers :=
      List.forall_mem_cons.mpr ⟨by decide, closingLine_fillers state⟩
    rw [closing_of_line (not_exists.mp hmode)]
    exact fills_map hlater

/-- What completes a plain text leaves it plain. -/
theorem Fills.plain {text more : List Glyph} (hfills : Fills more) (hplain : Plain text) :
    Plain (text ++ more) := by
  refine List.forall_mem_append.mpr ⟨hplain, fun glyph hmem => ?_⟩
  obtain ⟨c, hc, rfl⟩ := hfills glyph hmem
  refine ⟨c, rfl, fun hblank => ?_⟩
  rcases mem_fillers.mp hc with rfl | rfl | rfl | rfl | rfl
  · cases hblank
  · exact .inl rfl
  · cases hblank
  · cases hblank
  · exact .inr (.inr (.inr rfl))

/-- What completes a text opens nothing. -/
theorem Fills.roomy {limit : Int} {depth : Nat} {text more : List Glyph} (hfills : Fills more)
    (hroomy : Roomy limit depth text) : Roomy limit depth (text ++ more) := by
  have hnone : more.countP Glyph.opensForm = 0 := by
    rw [List.countP_eq_zero]
    intro glyph hmem
    obtain ⟨c, hc, rfl⟩ := hfills glyph hmem
    obtain ⟨hopen, hquote⟩ := Scannerless.fillers_open_nothing hc
    simp [Glyph.opensForm, hopen, hquote]
  intro hpos
  rw [List.countP_append, hnone]
  exact hroomy hpos

end Completion

namespace Scannerless

/-- The walk before an expression; `inComment` says that a comment has begun. -/
def before : (inComment : Bool) → Completion.State
  | true => { Completion.State.top with mode := .comment }
  | false => .top

/-- White space and comments before an expression leave the walk where it was. -/
theorem foldl_skipTriviaOver {text : List Glyph} (hplain : Plain text) {inComment : Bool}
    (hskip : skipTriviaOver inComment text ≠ []) :
    (skipTriviaOver inComment text).foldl Completion.State.step .top =
      text.foldl Completion.State.step (before inComment) := by
  induction text generalizing inComment with
  | nil => cases inComment <;> exact absurd rfl hskip
  | cons glyph text ih =>
      obtain ⟨c, rfl, hchar⟩ := hplain glyph (by simp)
      rw [List.foldl_cons]
      cases inComment with
      | true =>
          have hstep : (before true).step (.char c) = before (!Glyph.isChar '\n' (.char c)) := by
            cases hline : Glyph.isChar '\n' (.char c) <;>
              simp [Completion.State.step, before, Completion.State.top, hline]
          rw [hstep]
          exact ih hplain.tail hskip
      | false =>
          by_cases hblank : Glyph.isAsciiBlank (.char c) = true
          · rw [skipTriviaOver, if_pos hblank] at hskip ⊢
            rw [before, Completion.step_blank rfl hchar (isBlank_of_isAsciiBlank hblank)]
            exact ih hplain.tail hskip
          · rw [skipTriviaOver, if_neg hblank] at hskip ⊢
            by_cases hcomment : Glyph.isChar ';' (.char c) = true
            · have hstep : (before false).step (.char c) = before true := by
                simp [Completion.State.step, before, Completion.State.top, hcomment]
              rw [if_pos hcomment] at hskip ⊢
              rw [hstep]
              exact ih hplain.tail hskip
            · rw [if_neg hcomment]
              rfl

theorem openBehind_skipTrivia {text : List Glyph} (hplain : Plain text)
    (hskip : skipTrivia text ≠ []) :
    Completion.openBehind .top (skipTrivia text) = Completion.openBehind .top text :=
  congrArg Completion.State.endWord (foldl_skipTriviaOver hplain hskip)

/-- A text that the token reader reads to its end starts with an expression of the
grammar. -/
theorem walk_of_completes {limit : Int} {text : List Glyph} (hplain : Plain text)
    (hroomy : Roomy limit 0 text) (hskip : skipTrivia text ≠ [])
    (hcompletes : Nest.Completes limit .top text) :
    ∃ value rest, Grammar.walk [] text = some (.ok value, rest) := by
  obtain ⟨tokens, hcuts, hread⟩ := hcompletes
  let reader : TokenReader := ⟨none, [], ⟨default, none⟩, ⟨default, none⟩, limit⟩
  obtain ⟨values, hvalues⟩ := hread reader rfl rfl []
  have hsame := sameResult_readAllOver reader hcuts hplain hroomy (Nat.lt_succ_self _)
    (Nat.lt_succ_self _) []
  rw [hvalues, readAllOver, next?_eq (Nat.lt_succ_self _) hskip] at hsame
  cases hwalk : Grammar.walk [] text with
  | none =>
      rw [hwalk] at hsame
      cases hsame
  | some found =>
      obtain ⟨_ | value, rest⟩ := found
      · rw [hwalk] at hsame
        cases hsame
      · exact ⟨value, rest, rfl⟩

theorem diagnose_of_walk {text : List Glyph} {value : Value} {rest : List Glyph}
    (hdepth : 0 ≤ (Completion.openBehind .top text).depth)
    (hwalk : Grammar.walk [] (text ++ Completion.closing (Completion.openBehind .top text)) =
      some (.ok value, rest)) :
    diagnose text = .incompleteExpression := by
  have hstart : ¬text.head?.any (Glyph.isChar ')') = true := by
    intro hclose
    cases text with
    | nil => cases hclose
    | cons glyph text =>
        rw [Grammar.Rule.eq_of_isChar hclose, List.cons_append,
          Grammar.walk_of_nextPart? rfl] at hwalk
        cases hwalk
  have hcompletion : completion? text =
      some (text ++ Completion.closing (Completion.openBehind .top text)) :=
    if_neg (Int.not_lt.mpr hdepth)
  have hmatch : Grammar.match? (text ++ Completion.closing (Completion.openBehind .top text)) =
      some (.ok value, rest) := hwalk
  rw [diagnose, if_neg hstart, hcompletion, Option.bind_some, hmatch]

/-- Where the token reader wants more text, the scannerless reader finds that the text can
be completed. -/
theorem next?_incomplete {reader : TokenReader} {text : List Glyph} {tokens : List Token}
    (hcuts : Lexer.Cuts text tokens reader.ending.fault) (hplain : Plain text)
    (hspaced : Lexer.Spaced text) (hroomy : Roomy reader.limit 0 text) {fuel : Nat}
    (hfuel : text.length < fuel) (hgap : Grammar.skipGaps text ≠ []) {error : ReadError}
    (hread : (reader.readOver tokens .top).1 = .error error)
    (hincomplete : error.fault.isIncomplete = true)
    (hnone : Grammar.walk [] text = none) :
    next? fuel text = .error ⟨.incompleteExpression, skipTrivia text⟩ := by
  have htrivia : skipTrivia text = Grammar.skipGaps text :=
    skipTriviaOver_eq_skipGapsOver hplain false
  have hskip : skipTrivia text ≠ [] := by rwa [htrivia]
  have htracks : Completion.Tracks Nest.top.forms .top text := Completion.tracks_top text
  obtain ⟨hdepth, hcompletes⟩ := htracks.completes hcuts rfl hplain hspaced hread hincomplete
  rw [← openBehind_skipTrivia hplain hskip] at hdepth hcompletes
  have hfills := Completion.fills_closing (Completion.openBehind .top (skipTrivia text))
  obtain ⟨value, rest, hwalk⟩ := walk_of_completes (hfills.plain hplain) (hfills.roomy hroomy)
    (skipTriviaOver_append_ne_nil hskip _) hcompletes
  rw [← Grammar.walk_skipGaps_append [] hgap, ← htrivia] at hwalk
  rw [next?_eq hfuel hskip, hnone, diagnose_of_walk hdepth hwalk]

/-- If the token reader wants more text at the end, the scannerless reader does so, provided
that no number of the expression that is left open runs into a comment or a dot. -/
theorem readAllOver_incomplete (reader : TokenReader) {text : List Glyph}
    {tokens : List Token} (hcuts : Lexer.Cuts text tokens reader.ending.fault)
    (hplain : Plain text) (hspaced : ∀ stop, StopsAt text stop → Lexer.Spaced stop)
    (hroomy : Roomy reader.limit 0 text) {fuel count : Nat} (hfuel : text.length < fuel)
    (hcount : text.length < count) (found : List Value) {error : ReadError}
    (hread : (reader.readAllOver tokens .top found).1 = .error error)
    (hincomplete : error.fault.isIncomplete = true) :
    ∃ fault, readAllOver fuel count found text = .error fault ∧
      fault.fault.isIncomplete = true := by
  induction count generalizing text tokens found with
  | zero => exact absurd hcount (Nat.not_lt_zero _)
  | succ count ih =>
      by_cases hgap : Grammar.skipGaps text = []
      · obtain ⟨hcomments, hfault⟩ := (skipGaps_eq_nil_iff hcuts hplain).mp hgap
        rw [reader.readAllOver_onlyComments hcomments hfault] at hread
        cases hread
      · have hmore : ¬(Nest.top.forms = [] ∧ TokenReader.OnlyComments tokens ∧
            reader.ending.fault = none) :=
          fun hnone => hgap ((skipGaps_eq_nil_iff hcuts hplain).mpr hnone.2)
        rw [reader.readAllOver_eq_readOver hmore] at hread
        rw [readAllOver]
        rcases next?_readOver reader hcuts hplain hroomy hfuel hgap with
          ⟨value, after, rest, hfirst, hnext, hcuts', hsuffix, hlength⟩ |
            ⟨error', after, fault, hfirst, _, hnone⟩
        · have hwalk := ((next?_eq_some hfuel).mp hnext).2
          rw [hfirst] at hread
          rw [hnext]
          exact ih hcuts' (hplain.of_suffix hsuffix)
            (fun stop hstops => hspaced stop (.behind hwalk hstops))
            (hroomy.of_suffix hsuffix) (by omega) (by omega) (value :: found) hread
        · rw [hfirst] at hread
          cases hread
          have hwalk : Grammar.walk [] text = none := by
            rw [← hnone hincomplete]
            exact Grammar.matchOver_fuel (Nat.lt_succ_self _) hfuel
          have hnext := next?_incomplete hcuts hplain (hspaced text (.here hwalk)) hroomy
            hfuel hgap (congrArg Prod.fst hfirst) hincomplete hwalk
          exact ⟨_, by rw [hnext], rfl⟩

end Scannerless

namespace Reader

/-- What is incomplete for the scannerless reader is so for the token reader: a later line
that completes the text completes it for both. -/
theorem tokens_incomplete {file text : Bytes} (hplain : Plain (glyphs text))
    (hroomy : Roomy TokenReader.defaultLimit 0 (glyphs text)) {error : ReadError}
    (hread : Reader.scannerless.readAll file text = .error error)
    (hincomplete : error.fault.isIncomplete = true) :
    ∃ error', Reader.tokens.readAll file text = .error error' ∧
      error'.fault.isIncomplete = true := by
  have hfeed : Glyph.char '\x0c' ∉ glyphs text := by
    intro hmem
    obtain ⟨c, hglyph, hchar⟩ := hplain _ hmem
    cases hglyph
    exact toNat_ne_formFeed hchar rfl
  have hskips : ∀ stop, Scannerless.StopsAt (glyphs text) stop →
      Scannerless.skipsFeed false stop = false := by
    intro stop hstops
    exact Scannerless.skipsFeed_of_not_mem (fun hmem => hfeed (hstops.suffix.mem hmem)) false
  obtain ⟨line, hline, values, hvalues⟩ := Scannerless.readAll_line hskips hread hincomplete
  have hfills : Completion.Fills (('\n' :: line).map .char) :=
    Completion.fills_map (List.forall_mem_cons.mpr ⟨by decide, hline⟩)
  have hglyphs : glyphs (text ++ 10 :: encode line) =
      glyphs text ++ ('\n' :: line).map .char := by
    rw [glyphs_append_line, glyphs_encode]
    rfl
  have hlater : SameResult (Reader.tokens.readAll file (text ++ 10 :: encode line))
      (.ok values : Except ReadError _) := by
    rw [← hvalues]
    apply sameResult_readAll
    · rw [hglyphs]
      exact hfills.plain hplain
    · rw [hglyphs]
      exact hfills.roomy hroomy
  have hsame := @sameResult_readAll file text hplain hroomy
  rw [hread] at hsame
  obtain ⟨error', hfirst⟩ := hsame.of_error
  refine ⟨error', hfirst, ?_⟩
  by_contra hdefinite
  have hstays := TokenReader.readAll_later_of_definite hfirst (Bool.eq_false_iff.mpr hdefinite)
    (encode line)
  cases hstays.symm.trans hlater.of_ok

/-- What is incomplete for the token reader is so for the scannerless reader, unless a
number of the expression that is left open runs into a comment or a dot. -/
theorem scannerless_incomplete {file text : Bytes} (hplain : Plain (glyphs text))
    (hroomy : Roomy TokenReader.defaultLimit 0 (glyphs text))
    (hspaced : ∀ stop, Scannerless.StopsAt (glyphs text) stop → Lexer.Spaced stop)
    {error : ReadError}
    (hread : Reader.tokens.readAll file text = .error error)
    (hincomplete : error.fault.isIncomplete = true) :
    ∃ error', Reader.scannerless.readAll file text = .error error' ∧
      error'.fault.isIncomplete = true := by
  obtain ⟨_, hcuts, _⟩ := Lexer.tokens_ofBytes file text
  obtain ⟨fault, hfault, hwants⟩ := Scannerless.readAllOver_incomplete
    (TokenReader.ofBytes file text TokenReader.defaultLimit) hcuts hplain hspaced hroomy
    (Nat.lt_succ_self _) (Nat.lt_succ_self _) [] hread hincomplete
  refine ⟨fault.error file text, ?_, hwants⟩
  rw [Reader.readAll, Scannerless.readAll_eq (Scannerless.check_eq_ok hplain hroomy), hfault]
  rfl

theorem readProgram_incomplete_iff (reader : Reader) (file text : Bytes) :
    (∃ failure, reader.readProgram file (.ofBytes text) = .error failure ∧
        failure.isIncomplete = true) ↔
      ∃ error, reader.readAll file text = .error error ∧ error.fault.isIncomplete = true := by
  change (∃ failure, (reader.readAll file text).mapError Failure.ofReadError = .error failure ∧
    failure.isIncomplete = true) ↔ _
  cases reader.readAll file text with
  | ok values => simp [Except.mapError]
  | error error =>
      have hsame : (Failure.ofReadError error).isIncomplete = error.fault.isIncomplete := rfl
      simp [Except.mapError, hsame]

/-- The two readers agree on which texts are incomplete, among the well-formed texts whose
only white space is spaces, tabs and line ends and which have not enough parentheses and
quotes to nest too deeply, unless a number of the expression that is left open runs into a
comment or into a dot that stands alone.  Even then the token reader waits for more where the
scannerless reader does. -/
theorem incompleteness_agrees (file text : Bytes) (hformed : isWellFormed text = true)
    (hblanks : ∀ c, Glyph.char c ∈ glyphs text → isBlank c = true →
      c = ' ' ∨ c = '\t' ∨ c = '\r' ∨ c = '\n')
    (hforms : (glyphs text).countP (fun glyph => glyph.isChar '(' || glyph.isChar '\'') ≤
      10000) :
    ((∃ failure, Reader.scannerless.readProgram file (.ofBytes text) = .error failure ∧
        failure.isIncomplete = true) →
      ∃ failure, Reader.tokens.readProgram file (.ofBytes text) = .error failure ∧
        failure.isIncomplete = true) ∧
      ((∀ stop, Scannerless.StopsAt (glyphs text) stop → Lexer.Spaced stop) →
        ((∃ failure, Reader.tokens.readProgram file (.ofBytes text) = .error failure ∧
            failure.isIncomplete = true) ↔
          ∃ failure, Reader.scannerless.readProgram file (.ofBytes text) = .error failure ∧
            failure.isIncomplete = true)) := by
  have hplain : Plain (glyphs text) := plain_glyphs hformed hblanks
  have hroomy : Roomy TokenReader.defaultLimit 0 (glyphs text) := roomy_of_countP hforms
  simp only [readProgram_incomplete_iff]
  have htokens : (∃ error, Reader.scannerless.readAll file text = .error error ∧
        error.fault.isIncomplete = true) →
      ∃ error, Reader.tokens.readAll file text = .error error ∧
        error.fault.isIncomplete = true := by
    rintro ⟨error, hread, hincomplete⟩
    exact tokens_incomplete hplain hroomy hread hincomplete
  refine ⟨htokens, fun hspaced => ⟨?_, htokens⟩⟩
  rintro ⟨error, hread, hincomplete⟩
  exact scannerless_incomplete hplain hroomy hspaced hread hincomplete

/-- Behind a number with a comment, a list with another number is left open in the literal
behind its dot. -/
theorem incompleteness_agrees_literal :
    ∃ failure, Reader.scannerless.readProgram defaultName
      (.ofBytes (utf8 "1;a\n(5 . \"b")) = .error failure ∧ failure.isIncomplete = true := by
  have hspaces : ∀ glyph ∈ glyphs (utf8 "1;a\n(5 . \"b"),
      glyph.satisfies (fun c => !isBlank c || c == ' ' || c == '\n') = true := by
    decide +kernel
  have hfirst : Grammar.walk [] (glyphs (utf8 "1;a\n(5 . \"b")) =
      some (.ok (.int 1), glyphs (utf8 ";a\n(5 . \"b")) := by decide +kernel
  have hsecond : Grammar.walk [] (glyphs (utf8 ";a\n(5 . \"b")) = none := by decide +kernel
  have hspaced : Lexer.Spaced (glyphs (utf8 ";a\n(5 . \"b")) :=
    .token rfl (by decide) (.token rfl (by decide) (.token rfl (by decide)
      (.token rfl (by decide) (.stopped rfl))))
  refine ((incompleteness_agrees defaultName _ (by decide +kernel) ?_
    (by decide +kernel)).2 ?_).mp ⟨_, rfl, by decide +kernel⟩
  · intro c hmem hblank
    have hspace := hspaces (.char c) hmem
    simp only [Glyph.satisfies, hblank, Bool.not_true, Bool.false_or, Bool.or_eq_true,
      beq_iff_eq] at hspace
    rcases hspace with rfl | rfl
    · exact .inl rfl
    · exact .inr (.inr (.inr rfl))
  · intro stop hstops
    rw [hstops.unique (.behind hfirst (.here hsecond))]
    exact hspaced

/-- The parenthesis stands in a comment that follows a number directly.  The list is open for
the token reader, but the scannerless reader does not wait for its end. -/
theorem incompleteness_differs_behind_number :
    isWellFormed (utf8 "(5;)") = true ∧
      (∀ glyph ∈ glyphs (utf8 "(5;)"), glyph.satisfies isBlank = false) ∧
      (glyphs (utf8 "(5;)")).countP (fun glyph => glyph.isChar '(' || glyph.isChar '\'') ≤
        10000 ∧
      (∃ failure, Reader.tokens.readProgram defaultName (.ofBytes (utf8 "(5;)")) =
        .error failure ∧ failure.isIncomplete = true) ∧
      ∃ failure, Reader.scannerless.readProgram defaultName (.ofBytes (utf8 "(5;)")) =
        .error failure ∧ failure.isIncomplete = false :=
  ⟨by decide +kernel, by decide +kernel, by decide +kernel, ⟨_, rfl, by decide +kernel⟩,
    ⟨_, rfl, by decide +kernel⟩⟩

end Reader

end MiniLisp
