import MiniLisp.Proofs.Completable
import MiniLisp.Proofs.TokenPlaces

/-!
Reading ends on every text, and all that it reports are faults at places of the text.  The
token reader takes a token before it reports anything, and the scannerless reader reports
where the text that it cannot read begins.  What either of them takes for a string literal
is one, and the parentheses that complete a text are as many as there are open lists.
-/

namespace MiniLisp

/-! ### Offsets -/

/-- A place in a text of `length` bytes, the end of the text included. -/
def Location.Within (length : Nat) (source : Location) : Prop :=
  0 ≤ source.pos ∧ source.pos ≤ length

/-- An offset up to the end of a text is located within the text. -/
theorem within_locate {file text : Bytes} {offset : Nat} (hoffset : offset ≤ text.length) :
    (locate file text offset).Within text.length :=
  ⟨Int.natCast_nonneg _, Int.ofNat_le.mpr hoffset⟩

theorem Glyph.width_pos (glyph : Glyph) : 0 < glyph.width := by
  cases glyph with
  | char c => exact c.utf8Size_pos
  | stray byte => exact Nat.one_pos

theorem glyphWidth_append (text more : List Glyph) :
    glyphWidth (text ++ more) = glyphWidth text + glyphWidth more := by
  simp only [glyphWidth_eq_length, glyphBytes_append, List.length_append]

/-- The glyphs of a text take all of its bytes. -/
theorem glyphWidth_glyphs (text : Bytes) : glyphWidth (glyphs text) = text.length := by
  rw [glyphWidth_eq_length, glyphBytes_glyphs]

/-- A stray byte stands before the end of the text. -/
theorem strayOffset_lt {text : Bytes} (hformed : isWellFormed text = false) :
    strayOffset text < text.length := by
  have hdrop : (glyphs text).dropWhile Glyph.isValid ≠ [] := by
    intro hnil
    have hall := List.dropWhile_eq_nil_iff.mp hnil
    rw [isWellFormed, List.all_eq_false] at hformed
    obtain ⟨glyph, hmem, hinvalid⟩ := hformed
    exact hinvalid (hall glyph hmem)
  obtain ⟨stray, rest, hrest⟩ := List.exists_cons_of_ne_nil hdrop
  have hwidth := congrArg glyphWidth (List.takeWhile_append_dropWhile (p := Glyph.isValid)
    (l := glyphs text))
  rw [glyphWidth_append, hrest, glyphWidth_cons, glyphWidth_glyphs] at hwidth
  have hpos := stray.width_pos
  rw [strayOffset]
  omega

namespace Nesting

theorem overflowOver_lt {limit offset found : Nat} {text : List Glyph} {state : State}
    (hfound : overflowOver limit text offset state = some found) :
    found < offset + glyphWidth text := by
  induction text generalizing offset state with
  | nil => cases hfound
  | cons glyph text ih =>
      have hpos := glyph.width_pos
      rw [glyphWidth_cons]
      rw [overflowOver] at hfound
      split at hfound
      · have hlt := ih hfound
        omega
      · cases hfound
        omega
      · cases hfound

/-- What nests below the limit stands before the end of the text. -/
theorem overflow?_lt {limit : Int} {text : Bytes} {found : Nat}
    (hfound : overflow? limit (glyphs text) = some found) : found < text.length := by
  rw [overflow?] at hfound
  split_ifs at hfound
  have hlt := overflowOver_lt hfound
  rwa [glyphWidth_glyphs, Nat.zero_add] at hlt

end Nesting

/-! ### Tokens -/

namespace Lexer

/-- Every token of a stream stands within the text, the last one included. -/
theorem Yields.within {lexer : Lexer} {tokens : List Token} {last : Token}
    (hyields : Yields lexer tokens last) (hfault : lexer.fault = none) :
    ∀ token ∈ tokens ++ [last], token.source.Within lexer.scanner.extent := by
  have hnext : ∀ {lexer : Lexer}, lexer.fault = none →
      lexer.next.1.source.Within lexer.scanner.extent := by
    intro lexer hfault
    have hpos : lexer.next.1.source.pos = lexer.front.here.pos := by
      rw [(cutAt_next hfault).source]
      rfl
    have hextent := lexer.extent_front
    rw [Scanner.extent] at hextent
    constructor <;> omega
  induction hyields with
  | last hfinal =>
      intro token hmem
      rw [List.mem_singleton.mp hmem]
      exact hnext hfault
  | @more lexer tokens last hfinal _ ih =>
      have hclear := (next_shortens hfault hfinal).1
      have hextent := (cutAt_next hfault).extent.trans lexer.extent_front
      rw [hextent] at ih
      exact List.forall_mem_cons.mpr ⟨hnext hfault, ih hclear⟩

theorem Yields.isFinal_last {lexer : Lexer} {tokens : List Token} {last : Token}
    (hyields : Yields lexer tokens last) : last.kind.isFinal = true := by
  induction hyields with
  | last hfinal => exact hfinal
  | more _ _ ih => exact ih

/-- Every string token is a literal with a value. -/
theorem Cuts.unquote {text : List Glyph} {tokens : List Token} {fault : Option Fault}
    (hcuts : Cuts text tokens fault) :
    ∀ token ∈ tokens, token.kind = .string →
      ∃ content, Literal.unquote token.text = .ok content := by
  induction hcuts with
  | ended => simp
  | stopped => simp
  | @token text taken rest token tokens fault hlexeme htext hrest ih =>
      refine List.forall_mem_cons.mpr ⟨fun hkind => ?_, ih⟩
      rw [hkind] at hlexeme
      obtain ⟨body, hbody, rfl⟩ := body_of_lexeme hlexeme
      obtain ⟨chars, hchars⟩ := Literal.unquote_body hbody
      rw [htext, glyphBytes_map_char]
      exact ⟨_, hchars⟩

end Lexer

/-! ### The token reader -/

def OpenForm.opener? : OpenForm → Option Token
  | .quote => none
  | .items opener _ | .tail opener _ | .close opener _ _ => some opener

namespace Nest

/-- Tokens of the class `P` opened the lists among open forms. -/
def OpenedBy (P : Token → Prop) (forms : List OpenForm) : Prop :=
  ∀ form ∈ forms, ∀ opener, form.opener? = some opener → P opener

/-- What a token leads to: lists that were opened by tokens of the class `P`, or a fault at
the token. -/
def Progress.Traces (P : Token → Prop) (token : Token) : Progress → Prop
  | .more nest => OpenedBy P nest.forms
  | .done _ => True
  | .fault error => error.source = token.source

section

variable {P : Token → Prop} {forms outer : List OpenForm} {form : OpenForm} {token : Token}
  {nest : Nest}

theorem openedBy_cons :
    OpenedBy P (form :: outer) ↔
      (∀ opener, form.opener? = some opener → P opener) ∧ OpenedBy P outer :=
  List.forall_mem_cons

theorem traces_supply (hforms : OpenedBy P forms) (depth : Nat) (value : Value) :
    (supply depth forms value).Traces P token := by
  induction forms generalizing depth value with
  | nil => trivial
  | cons form outer ih =>
      obtain ⟨hform, houter⟩ := openedBy_cons.mp hforms
      cases form with
      | quote => exact ih houter (depth - 1) value.quote
      | items opener done => exact openedBy_cons.mpr ⟨hform, houter⟩
      | tail opener done => exact openedBy_cons.mpr ⟨hform, houter⟩
      | close opener done tail => exact openedBy_cons.mpr ⟨hform, houter⟩

theorem traces_enter (limit : Int) (hnest : OpenedBy P nest.forms)
    (hform : ∀ opener, form.opener? = some opener → P opener) :
    (nest.enter limit form token).Traces P token := by
  rw [enter]
  split_ifs
  · rfl
  · exact openedBy_cons.mpr ⟨hform, hnest⟩

theorem traces_expression (limit : Int) (hnest : OpenedBy P nest.forms)
    (htoken : token.kind = .openParen → P token) :
    (nest.expression limit token).Traces P token := by
  rw [expression]
  split
  · exact hnest
  · split
    · exact traces_supply hnest _ _
    · rfl
  · split
    · exact traces_supply hnest _ _
    · rfl
  · exact traces_supply hnest _ _
  · exact traces_enter limit hnest (by simp [OpenForm.opener?])
  · next hkind =>
      refine traces_enter limit hnest ?_
      rintro opener hopener
      cases hopener
      exact htoken hkind
  · rfl
  · rfl

/-- One token opens a list itself or leaves the lists to the tokens that opened them. -/
theorem traces_step (limit : Int) (hnest : OpenedBy P nest.forms)
    (htoken : token.kind = .openParen → P token) : (nest.step limit token).Traces P token := by
  rw [step]
  split
  · next hforms _ =>
      rw [hforms] at hnest
      exact traces_supply (openedBy_cons.mp hnest).2 _ _
  · next hforms _ =>
      split_ifs
      · rfl
      · rw [hforms] at hnest
        obtain ⟨hopener, houter⟩ := openedBy_cons.mp hnest
        exact openedBy_cons.mpr ⟨hopener, houter⟩
  · rfl
  · next hforms _ =>
      rw [hforms] at hnest
      exact traces_supply (openedBy_cons.mp hnest).2 _ _
  · exact hnest
  · rfl
  · exact traces_expression limit hnest htoken

theorem source_unfinished (hnest : OpenedBy P nest.forms) (ending : Lexer.Ending) :
    (nest.unfinished ending).source = ending.token.source ∨
      (nest.unfinished ending).fault = .unclosedList ∧
        ∃ opener, P opener ∧ (nest.unfinished ending).source = opener.source := by
  rw [unfinished]
  split
  · next hforms _ =>
      rw [hforms] at hnest
      exact .inr ⟨rfl, _, (openedBy_cons.mp hnest).1 _ rfl, rfl⟩
  · next hforms _ =>
      rw [hforms] at hnest
      exact .inr ⟨rfl, _, (openedBy_cons.mp hnest).1 _ rfl, rfl⟩
  · exact .inl rfl
  · exact .inl rfl
  · exact .inl rfl

end

end Nest

namespace TokenReader

open Nest (OpenedBy)

def IsOpener (tokens : List Token) (token : Token) : Prop :=
  token ∈ tokens ∧ token.kind = .openParen

/-- The failure of a run that reads `tokens`, and where the run has come to: the last of the
tokens that it has taken is where the error stands, unless a list is never closed; then the
error stands at the token that opened it. -/
def FailsAt (tokens : List Token) (ending : Token) (error : ReadError) (after : TokenReader) :
    Prop :=
  ∃ token ∈ tokens ++ [ending], after.current = some token ∧
    (error.source = token.source ∨ error.fault = .unclosedList ∧
      ∃ opener, IsOpener tokens opener ∧ error.source = opener.source)

section

variable {reader : TokenReader} {tokens all : List Token} {nest : Nest} {error : ReadError}

theorem failsAt_unfinished (hnest : OpenedBy (IsOpener all) nest.forms) :
    FailsAt all reader.ending.token (nest.unfinished reader.ending) reader.behindEnding := by
  exact ⟨reader.ending.token, by simp, rfl, Nest.source_unfinished hnest reader.ending⟩

theorem failsAt_readOver
    (hnest : OpenedBy (IsOpener all) nest.forms)
    (htokens : ∀ token ∈ tokens, token ∈ all)
    (herror : (reader.readOver tokens nest).1 = .error error) :
    FailsAt all reader.ending.token error (reader.readOver tokens nest).2 := by
  induction tokens generalizing nest with
  | nil =>
      cases herror
      exact failsAt_unfinished hnest
  | cons token rest ih =>
      obtain ⟨htoken, hrest⟩ := List.forall_mem_cons.mp htokens
      have htraces := Nest.traces_step reader.limit hnest fun hkind => ⟨htoken, hkind⟩
      rw [readOver] at herror ⊢
      split at herror
      · next hstep =>
          rw [hstep] at htraces
          exact ih htraces hrest herror
      · cases herror
      · next hstep =>
          rw [hstep] at htraces
          cases herror
          exact ⟨token, by simp [htoken], rfl, .inl htraces⟩

theorem failsAt_readAllOver {found : List Value}
    (hnest : OpenedBy (IsOpener all) nest.forms)
    (htokens : ∀ token ∈ tokens, token ∈ all)
    (herror : (reader.readAllOver tokens nest found).1 = .error error) :
    FailsAt all reader.ending.token error (reader.readAllOver tokens nest found).2 := by
  induction tokens generalizing nest found with
  | nil =>
      rw [readAllOver] at herror ⊢
      split_ifs at herror ⊢
      cases herror
      exact failsAt_unfinished hnest
  | cons token rest ih =>
      obtain ⟨htoken, hrest⟩ := List.forall_mem_cons.mp htokens
      have htraces := Nest.traces_step reader.limit hnest fun hkind => ⟨htoken, hkind⟩
      rw [readAllOver] at herror ⊢
      split at herror
      · next hstep =>
          rw [hstep] at htraces
          exact ih htraces hrest herror
      · -- The next expression starts with nothing open.
        exact ih (by simp [OpenedBy, Nest.top]) hrest herror
      · next hstep =>
          rw [hstep] at htraces
          cases herror
          exact ⟨token, by simp [htoken], rfl, .inl htraces⟩

theorem skipCommentsOver_spec (tokens : List Token) (reader : TokenReader)
    (hahead : reader.ahead = tokens) :
    (skipCommentsOver tokens reader).ahead <:+ tokens ∧
      (skipCommentsOver tokens reader).ending = reader.ending := by
  induction tokens generalizing reader with
  | nil => exact ⟨by simp [skipCommentsOver, hahead], rfl⟩
  | cons token rest ih =>
      rw [skipCommentsOver]
      split_ifs
      · obtain ⟨hsuffix, hending⟩ := ih (reader.behind token rest) rfl
        exact ⟨hsuffix.trans (List.suffix_cons _ _), hending⟩
      · exact ⟨by simp [hahead], rfl⟩

theorem failsAt_readAll (herror : reader.readAll.1 = .error error) :
    FailsAt reader.ahead reader.ending.token error reader.readAll.2 :=
  failsAt_readAllOver (by simp [OpenedBy, Nest.top]) (fun _ hmem => hmem) herror

theorem failsAt_readFirst (herror : reader.readFirst.1 = .error error) :
    FailsAt reader.ahead reader.ending.token error reader.readFirst.2 := by
  obtain ⟨hsuffix, hending⟩ := skipCommentsOver_spec reader.ahead reader rfl
  rw [readFirst] at herror ⊢
  split_ifs at herror ⊢
  rw [← hending]
  exact failsAt_readOver (by simp [OpenedBy, Nest.top]) (fun _ hmem => hsuffix.mem hmem) herror

end

end TokenReader

/-! ### The scannerless reader -/

namespace Grammar

/-- Nothing that the grammar takes for a string literal fails to be one. -/
theorem part?_ne_literal {text rest : List Glyph} {node : Node}
    (hchars : ∀ glyph ∈ text, ∃ c, glyph = .char c)
    (hpart : part? text = some (.atom node, rest)) (fault : Literal.Fault) :
    node ≠ .error (.literal fault) := by
  cases text with
  | nil => cases hpart
  | cons first behind =>
      rw [part?] at hpart
      split_ifs at hpart with _ _ _ hquote
      · cases hpart
      · cases hpart
      · cases hpart
      · obtain ⟨⟨literal, rest'⟩, hliteral, hfound⟩ := Option.map_eq_some_iff.mp hpart
        cases hfound
        rw [Rule.eq_of_isChar hquote] at hliteral
        obtain ⟨value, hvalue⟩ :=
          stringNode_eq_ok (List.forall_mem_cons.mp hchars).2 hliteral
        simp [hvalue]
      · cases hpart
        rw [intNode]
        split <;> simp
      · cases hpart
        simp [symbolNode]
      · cases hpart
      · cases hpart
        simp [symbolNode]

end Grammar

namespace Completion

theorem chars_closing (state : State) : ∀ glyph ∈ closing state, ∃ c, glyph = .char c := by
  have hstring : ∀ glyph ∈ closeString state.mode, ∃ c, glyph = .char c := by
    rcases state.mode with _ | _ | _ | _ <;> simp [closeString]
  have hpending : ∀ glyph ∈ closePending state, ∃ c, glyph = .char c := by
    unfold closePending
    split
    · simp
    · split_ifs <;> simp
  intro glyph hmem
  simp only [closing, List.mem_append, List.mem_singleton, List.mem_replicate] at hmem
  rcases hmem with ((hmem | rfl) | hmem) | ⟨_, rfl⟩
  · exact hstring glyph hmem
  · exact ⟨_, rfl⟩
  · exact hpending glyph hmem
  · exact ⟨_, rfl⟩

end Completion

theorem completion?_eq_some {text completed : List Glyph} :
    completion? text = some completed ↔
      0 ≤ (text.foldl Completion.State.step .top).endWord.depth ∧
        completed = text ++ Completion.closing
          (text.foldl Completion.State.step .top).endWord := by
  rw [completion?]
  split_ifs with hdepth
  · simp [Int.not_le.mpr hdepth]
  · simp [Int.not_lt.mp hdepth, eq_comm]

/-- What completes a text ends with one parenthesis for every list that is open. -/
theorem parens_of_completion? {text completed : List Glyph}
    (hcompletion : completion? text = some completed) :
    ∃ (closed : List Glyph) (count : Nat),
      completed = text ++ closed ++ List.replicate count (.char ')') ∧
        (count : Int) = (text.foldl Completion.State.step .top).endWord.depth := by
  obtain ⟨hdepth, hcompleted⟩ := completion?_eq_some.mp hcompletion
  generalize (text.foldl Completion.State.step .top).endWord = state at hdepth hcompleted ⊢
  refine ⟨Completion.closeString state.mode ++ [.char '\n'] ++ Completion.closePending state,
    state.depth.toNat, ?_, Int.toNat_of_nonneg hdepth⟩
  rw [hcompleted, Completion.closing, ← List.append_assoc]

namespace Scannerless

theorem skipTriviaOver_suffix (inComment : Bool) (text : List Glyph) :
    skipTriviaOver inComment text <:+ text := by
  induction text generalizing inComment with
  | nil => exact List.suffix_refl _
  | cons glyph text ih =>
      cases inComment with
      | true => exact (ih _).trans (List.suffix_cons _ _)
      | false =>
          rw [skipTriviaOver]
          split_ifs
          · exact (ih _).trans (List.suffix_cons _ _)
          · exact (ih _).trans (List.suffix_cons _ _)
          · exact List.suffix_refl _

/-- More fuel than there are glyphs makes no difference to the next expression. -/
theorem next?_fuel {fuel fuel' : Nat} {text : List Glyph} (hfuel : text.length < fuel)
    (hfuel' : text.length < fuel') : next? fuel text = next? fuel' text := by
  rw [next?, next?, Grammar.matchOver_fuel hfuel hfuel']

/-- Neither more fuel nor a higher bound than there are glyphs makes a difference to the
expressions of a text. -/
theorem readAllOver_fuel {fuel fuel' count count' : Nat} {text : List Glyph}
    (hfuel : text.length < fuel) (hfuel' : text.length < fuel') (hcount : text.length < count)
    (hcount' : text.length < count') (found : List Value) :
    readAllOver fuel count found text = readAllOver fuel' count' found text := by
  induction count generalizing count' text found with
  | zero => omega
  | succ count ih =>
      obtain ⟨count', rfl⟩ : ∃ less, count' = less + 1 := ⟨count' - 1, by omega⟩
      rw [readAllOver, readAllOver, next?_fuel hfuel' hfuel]
      split
      · rfl
      · rfl
      · next hnext =>
          have hshorter := Grammar.length_walk ((next?_eq_some hfuel).mp hnext).2
          exact ih (by omega) (by omega) (by omega) (by omega) _

/-- A fault stands where text is left. -/
theorem next?_place {fuel : Nat} {text : List Glyph} {fault : FaultAt}
    (hnext : next? fuel text = .error fault) : fault.text <:+ text ∧ fault.text ≠ [] := by
  rw [next?] at hnext
  split at hnext
  · cases hnext
  · next hskip =>
      split at hnext
      · cases hnext
        exact ⟨skipTriviaOver_suffix false text, hskip⟩
      · cases hnext
        exact ⟨skipTriviaOver_suffix false text, hskip⟩
      · cases hnext

theorem readAllOver_place {fuel count : Nat} {found : List Value} {text : List Glyph}
    {fault : FaultAt} (hfuel : text.length < fuel)
    (hread : readAllOver fuel count found text = .error fault) :
    fault.text <:+ text ∧ fault.text ≠ [] := by
  obtain ⟨rest, _, hnext, hsuffix, _⟩ := readAllOver_stops hfuel hread
  obtain ⟨hplace, hleft⟩ := next?_place hnext
  exact ⟨hplace.trans hsuffix, hleft⟩

end Scannerless

/-! ### Runs of both readers -/

/-- A parse error at a place in a text of `length` bytes. -/
def Failure.LocatedWithin (length : Nat) (failure : Failure) : Prop :=
  ∃ signal source, failure.signal? = some signal ∧ signal.reason.condition = .parse ∧
    signal.source = some source ∧ source.Within length

theorem Failure.locatedWithin_ofReadError {length : Nat} {error : ReadError}
    (hwithin : error.source.Within length) : (ofReadError error).LocatedWithin length :=
  ⟨_, error.source, rfl, rfl, rfl, hwithin⟩

theorem eq_error_of_mapError {ε ε' α : Type} {f : ε → ε'} {result : Except ε α} {error' : ε'}
    (herror : result.mapError f = .error error') :
    ∃ error, result = .error error ∧ error' = f error := by
  cases result with
  | ok value => cases herror
  | error error =>
      cases herror
      exact ⟨error, rfl, rfl⟩

namespace TokenReader

/-- A run of the token reader over a text that ends by itself and never asks for what is not
there. -/
structure SafeRun (file text : Bytes) (limit : Int) : Prop where
  /-- The stream of tokens comes to an end or to a token that cannot be read. -/
  ending : (ofBytes file text limit).ending.token.kind.isFinal = true
  /-- There are no more tokens than glyphs: a higher bound leads to the same ones. -/
  tokens (fuel : Nat) (hfuel : (glyphs text).length ≤ fuel) :
    Lexer.tokensOnto fuel [] (.ofBytes file text) = (Lexer.ofBytes file text).tokens
  /-- Every string token is a literal with a value. -/
  strings (token : Token) (hmem : token ∈ (ofBytes file text limit).ahead)
    (hkind : token.kind = .string) : ∃ content, Literal.unquote token.text = .ok content
  /-- An error is reported only behind a token, and located at one. -/
  first (error : ReadError) (herror : (ofBytes file text limit).readFirst.1 = .error error) :
    FailsAt (ofBytes file text limit).ahead (ofBytes file text limit).ending.token error
      (ofBytes file text limit).readFirst.2
  /-- The same holds of a run that reads every expression. -/
  all (error : ReadError) (herror : (ofBytes file text limit).readAll.1 = .error error) :
    FailsAt (ofBytes file text limit).ahead (ofBytes file text limit).ending.token error
      (ofBytes file text limit).readAll.2

theorem safeRun (file text : Bytes) (limit : Int) : SafeRun file text limit where
  ending := (Lexer.tokens_ofBytes file text).1.isFinal_last
  tokens _ hfuel := Lexer.tokensOnto_fuel rfl hfuel (Nat.le_refl _) []
  strings := (Lexer.tokens_ofBytes file text).2.1.unquote
  first _ herror := failsAt_readFirst herror
  all _ herror := failsAt_readAll herror

/-- The tokens that the reader fails at stand within the text. -/
theorem FailsAt.within {file text : Bytes} {limit : Int} {error : ReadError} {after : TokenReader}
    (hfails : FailsAt (ofBytes file text limit).ahead (ofBytes file text limit).ending.token
      error after) : error.source.Within text.length := by
  have hwithin := (Lexer.tokens_ofBytes file text).1.within rfl
  have hextent : (Lexer.ofBytes file text).scanner.extent = text.length :=
    (Nat.zero_add _).trans (glyphWidth_glyphs text)
  rw [hextent] at hwithin
  obtain ⟨token, htoken, _, hsource | ⟨_, opener, hopener, hsource⟩⟩ := hfails
  · rw [hsource]
    exact hwithin token htoken
  · rw [hsource]
    exact hwithin opener (List.mem_append_left _ hopener.1)

end TokenReader

namespace Scannerless

/-- A run of the scannerless reader over a text that ends by itself and never asks for what
is not there. -/
structure SafeRun (file text : Bytes) (limit : Int) : Prop where
  /-- A stray byte stands before the end of the text. -/
  stray (hformed : isWellFormed text = false) : strayOffset text < text.length
  /-- What nests below the limit stands before the end of the text. -/
  nesting (offset : Nat) (hoffset : Nesting.overflow? limit (glyphs text) = some offset) :
    offset < text.length
  /-- There are no more parts in an expression than glyphs: more fuel leads to the same
  match. -/
  parts (fuel : Nat) (probe : List Glyph) (hfuel : probe.length < fuel) :
    Grammar.matchOver fuel [] probe = Grammar.match? probe
  /-- There are no more expressions than glyphs: a higher bound leads to the same ones. -/
  count (fuel count : Nat) (hfuel : (glyphs text).length < fuel)
    (hcount : (glyphs text).length < count) :
    readAllOver fuel count [] (glyphs text) =
      readAllOver ((glyphs text).length + 1) ((glyphs text).length + 1) [] (glyphs text)
  /-- A fault stands where some text is left. -/
  place (fault : FaultAt)
    (hfault : readAllOver ((glyphs text).length + 1) ((glyphs text).length + 1) []
      (glyphs text) = .error fault) :
    fault.text <:+ glyphs text ∧ fault.text ≠ []
  /-- Every string that the grammar finds in a text which passes the checks, or in what
  completes some of it, is a literal with a value. -/
  strings (hcheck : check limit file text = .ok ()) (start : List Glyph)
    (hstart : start <:+ glyphs text) (probe : List Glyph)
    (hprobe : probe <:+ start ∨ ∃ completed, completion? start = some completed ∧
      probe <:+ completed) (node : Grammar.Node) (rest : List Glyph)
    (hpart : Grammar.part? probe = some (.atom node, rest)) (fault : Literal.Fault) :
    node ≠ .error (.literal fault)
  /-- A text is completed with as many parentheses as there are lists open, and never with
  fewer than none. -/
  completions (start completed : List Glyph) (hcompletion : completion? start = some completed) :
    ∃ (closed : List Glyph) (count : Nat),
      completed = start ++ closed ++ List.replicate count (.char ')') ∧
        (count : Int) = (start.foldl Completion.State.step .top).endWord.depth

theorem safeRun (file text : Bytes) (limit : Int) : SafeRun file text limit where
  stray := strayOffset_lt
  nesting _ hoffset := Nesting.overflow?_lt hoffset
  parts _ _ hfuel := Grammar.matchOver_fuel hfuel (Nat.lt_succ_self _)
  count _ _ hfuel hcount :=
    readAllOver_fuel hfuel (Nat.lt_succ_self _) hcount (Nat.lt_succ_self _) []
  place _ hfault := readAllOver_place (Nat.lt_succ_self _) hfault
  strings := by
    intro hcheck start hstart probe hprobe node rest hpart fault
    have hchars : ∀ glyph ∈ start, ∃ c, glyph = .char c :=
      fun glyph hmem => (check_eq_ok_iff.mp hcheck).1 glyph (hstart.mem hmem)
    apply Grammar.part?_ne_literal _ hpart fault
    -- What completes a text is made of characters, as the text is.
    intro glyph hmem
    rcases hprobe with hsuffix | ⟨completed, hcompletion, hsuffix⟩
    · exact hchars glyph (hsuffix.mem hmem)
    · rw [(completion?_eq_some.mp hcompletion).2] at hsuffix
      rcases List.mem_append.mp (hsuffix.mem hmem) with hold | hnew
      · exact hchars glyph hold
      · exact Completion.chars_closing _ glyph hnew
  completions _ _ hcompletion := parens_of_completion? hcompletion

theorem within_check {file text : Bytes} {limit : Int} {error : ReadError}
    (herror : check limit file text = .error error) : error.source.Within text.length := by
  rw [check] at herror
  split at herror
  · next byte rest hstray =>
      cases herror
      have hformed : isWellFormed text = false := by
        rw [isWellFormed, List.all_eq_false]
        have hmem : Glyph.stray byte ∈ (glyphs text).dropWhile Glyph.isValid := by simp [hstray]
        exact ⟨.stray byte, (List.dropWhile_sublist _).mem hmem, Bool.false_ne_true⟩
      exact within_locate (strayOffset_lt hformed).le
  · split at herror
    · next offset hoffset =>
        cases herror
        exact within_locate (Nesting.overflow?_lt hoffset).le
    · cases herror

theorem FaultAt.within_error (file text : Bytes) (fault : FaultAt) :
    (fault.error file text).source.Within text.length :=
  within_locate (Nat.sub_le _ _)

theorem within_readAll {file text : Bytes} {limit : Int} {error : ReadError}
    (herror : readAll limit file text = .error error) : error.source.Within text.length := by
  cases hcheck : check limit file text with
  | error error' =>
      rw [readAll, hcheck] at herror
      cases herror
      exact within_check hcheck
  | ok =>
      rw [readAll_eq hcheck] at herror
      obtain ⟨fault, _, rfl⟩ := eq_error_of_mapError herror
      exact fault.within_error file text

theorem within_readFirst {file text : Bytes} {limit : Int} {error : ReadError}
    (herror : readFirst limit file text = .error error) : error.source.Within text.length := by
  cases hcheck : check limit file text with
  | error error' =>
      rw [readFirst, hcheck] at herror
      cases herror
      exact within_check hcheck
  | ok =>
      rw [readFirst_eq hcheck] at herror
      split at herror
      · next fault _ =>
          cases herror
          exact fault.within_error file text
      · cases herror
      · cases herror

end Scannerless

namespace Reader

/-- Both readers are total, and all that they report are located parse errors.  On every byte
string, in well-formed UTF-8 or not, reading the first expression or the whole program gives
values or fails with a parse error at an offset within the text.  No bound on the tokens, the
parts or the expressions cuts a run off; the token reader reports nothing before it has taken
a token; what either reader takes for a string literal has a value; and a text is never
completed with a negative number of parentheses. -/
theorem readers_total_and_located (text : Bytes) :
    (∀ (reader : Reader) (failure : Failure), reader.read text = .error failure →
        failure.LocatedWithin text.length) ∧
      (∀ (reader : Reader) (file : Bytes) (failure : Failure),
        reader.readProgram file (.ofBytes text) = .error failure →
          failure.LocatedWithin text.length) ∧
      (∀ file, TokenReader.SafeRun file text TokenReader.defaultLimit) ∧
      ∀ file, Scannerless.SafeRun file text TokenReader.defaultLimit := by
  refine ⟨?_, ?_, fun file => TokenReader.safeRun file text _,
    fun file => Scannerless.safeRun file text _⟩
  · intro reader failure hread
    obtain ⟨error, herror, rfl⟩ := eq_error_of_mapError hread
    apply Failure.locatedWithin_ofReadError
    cases reader with
    | tokens => exact (TokenReader.failsAt_readFirst herror).within
    | scannerless => exact Scannerless.within_readFirst herror
  · intro reader file failure hread
    obtain ⟨error, herror, rfl⟩ := eq_error_of_mapError hread
    apply Failure.locatedWithin_ofReadError
    cases reader with
    | tokens => exact (TokenReader.failsAt_readAll herror).within
    | scannerless => exact Scannerless.within_readAll herror

end Reader

end MiniLisp
