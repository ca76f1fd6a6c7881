import MiniLisp.Proofs.LaterLine
import MiniLisp.Proofs.Literals
import MiniLisp.Proofs.TokenGrammar
import MiniLisp.Reader

/-!
Incomplete texts.  The token reader calls a text incomplete exactly if a later line
can complete it: a quote for the string literal that is open, or a value for the quote
or dot at the end, and then a parenthesis for every open list.  Every other fault
stands whatever the later lines are.
-/

namespace MiniLisp

/-! ### Completing open forms -/

namespace Nest

def lists : (forms : List OpenForm) → Nat
  | [] => 0
  | .quote :: outer => lists outer
  | _ :: outer => lists outer + 1

/-- Whether the innermost open form waits for no expression, so that it may end. -/
def Settled : (forms : List OpenForm) → Prop
  | .quote :: _ => False
  | .tail _ _ :: _ => False
  | _ => True

/-- After a step with `count` lists open, all of them can be closed. -/
def Progress.Closable (count : Nat) : Progress → Prop
  | .more nest => Settled nest.forms ∧ lists nest.forms = count
  | .done _ => count = 0
  | .fault _ => False

theorem closable_supply (depth : Nat) (forms : List OpenForm) (value : Value) :
    (supply depth forms value).Closable (lists forms) := by
  induction forms generalizing depth value with
  | nil => rfl
  | cons form forms ih =>
      rcases form with _ | ⟨opener, done⟩ | ⟨opener, done⟩ | ⟨opener, done, tail⟩
      · exact ih (depth - 1) value.quote
      · exact ⟨trivial, rfl⟩
      · exact ⟨trivial, rfl⟩
      · exact ⟨trivial, rfl⟩

/-- A parenthesis closes a list that may end. -/
theorem closable_step_close (limit : Int) {nest : Nest} {token : Token} {count : Nat}
    (hsettled : Settled nest.forms) (hlists : lists nest.forms = count + 1)
    (hkind : token.kind = .closeParen) : (nest.step limit token).Closable count := by
  obtain ⟨depth, forms⟩ := nest
  rcases forms with _ | ⟨_ | ⟨opener, done⟩ | ⟨opener, done⟩ | ⟨opener, done, tail⟩, outer⟩
  · cases hlists
  · exact hsettled.elim
  · obtain rfl : lists outer = count := Nat.add_right_cancel hlists
    simp only [step, hkind]
    exact closable_supply _ outer _
  · exact hsettled.elim
  · obtain rfl : lists outer = count := Nat.add_right_cancel hlists
    simp only [step, hkind]
    exact closable_supply _ outer _

end Nest

namespace TokenReader

/-- As many parentheses as there are open lists complete them. -/
theorem continueAll_closers {reader : TokenReader} (hfault : reader.ending.fault = none)
    {tokens : List Token} (hkinds : ∀ token ∈ tokens, token.kind = .closeParen)
    {progress : Nest.Progress} (hclosable : progress.Closable tokens.length)
    (found : List Value) : ∃ values, reader.continueAll tokens found progress = .ok values := by
  induction tokens generalizing progress found with
  | nil =>
      rcases progress with ⟨depth, forms⟩ | value | error
      · obtain ⟨hsettled, hlists⟩ := hclosable
        rcases forms with _ | ⟨_ | ⟨_, _⟩ | ⟨_, _⟩ | ⟨_, _, _⟩, outer⟩
        · exact ⟨found.reverse, by simp [continueAll, readAllOver, hfault]⟩
        · exact hsettled.elim
        all_goals cases hlists
      · exact ⟨(value :: found).reverse, by simp [continueAll, readAllOver, Nest.top, hfault]⟩
      · exact hclosable.elim
  | cons token tokens ih =>
      rcases progress with nest | value | error
      · obtain ⟨hsettled, hlists⟩ := hclosable
        have hstep := Nest.closable_step_close reader.limit hsettled hlists
          (hkinds token (by simp))
        rw [continueAll, readAllOver_cons]
        exact ih (fun later hmem => hkinds later (by simp [hmem])) hstep found
      · cases hclosable
      · exact hclosable.elim

/-- Where an expression is expected, a token with a value and then the parentheses
complete what is open. -/
theorem readAllOver_value_closers {reader : TokenReader} (hfault : reader.ending.fault = none)
    {nest : Nest} {token : Token} {value : Value}
    (hstep : nest.step reader.limit token = Nest.supply nest.depth nest.forms value)
    {tokens : List Token} (hkinds : ∀ token ∈ tokens, token.kind = .closeParen)
    (hcount : tokens.length = Nest.lists nest.forms) (found : List Value) :
    ∃ values, (readAllOver reader (token :: tokens) nest found).1 = .ok values := by
  rw [readAllOver_cons, hstep]
  refine continueAll_closers hfault hkinds ?_ found
  rw [hcount]
  exact Nest.closable_supply nest.depth nest.forms value

end TokenReader

namespace Lexer

def closers (count : Nat) : List Char :=
  List.replicate count ')'

theorem Cuts.closers {count : Nat} {tokens : List Token} {fault : Option Fault}
    (hcuts : Cuts ((closers count).map .char) tokens fault) :
    (∀ token ∈ tokens, token.kind = .closeParen) ∧ tokens.length = count ∧ fault = none := by
  induction count generalizing tokens with
  | zero =>
      obtain ⟨rfl, rfl⟩ := hcuts.of_ended rfl
      exact ⟨by simp, rfl, rfl⟩
  | succ count ih =>
      have hlexeme : lexeme ((Lexer.closers (count + 1)).map .char) =
          .token .closeParen [.char ')'] ((Lexer.closers count).map .char) := rfl
      obtain ⟨token, more, rfl, hkind, _, hrest⟩ := hcuts.of_token hlexeme
      obtain ⟨hkinds, hlength, rfl⟩ := ih hrest
      exact ⟨by simpa using ⟨hkind, hkinds⟩, by simpa using hlength, rfl⟩

/-- Behind white space, the next line is lexed from its beginning. -/
theorem lexeme_append_line {text : List Glyph} (hended : lexeme text = .ended)
    (later : List Glyph) : lexeme (text ++ .char '\n' :: later) = lexeme later := by
  have hdrop : (text ++ .char '\n' :: later).dropWhile (Glyph.satisfies isBlank) =
      later.dropWhile (Glyph.satisfies isBlank) := by
    rw [List.dropWhile_append, dropWhile_of_ended hended]
    rfl
  rw [lexeme, lexeme, hdrop]

theorem dropWhile_of_unterminated {text : List Glyph}
    (hopen : lexeme text = .stopped .unterminatedString) :
    ∃ behind, text.dropWhile (Glyph.satisfies isBlank) = .char '"' :: behind ∧
      literalOver [.char '"'] false behind = .error .unterminatedString := by
  rcases dropWhile_of_stopped hopen with ⟨byte, rest, _, hstray⟩ | hliteral
  · cases hstray
  · exact hliteral

/-- A literal that was cut off is read with what closes it, and can be decoded. -/
theorem lexeme_append_closed {text behind more literal rest : List Glyph}
    (hdrop : text.dropWhile (Glyph.satisfies isBlank) = .char '"' :: behind)
    (hclosed : literalOver [.char '"'] false (behind ++ more) = .ok (literal, rest)) :
    lexeme (text ++ more) = .token .string literal rest ∧
      ∃ content, Literal.unquote (glyphBytes literal) = .ok content := by
  obtain ⟨body, hbody, hliteral⟩ := body_of_literal hclosed
  obtain ⟨chars, hchars⟩ := Literal.unquote_body hbody
  refine ⟨?_, encode chars, ?_⟩
  · have hdrop' : (text ++ more).dropWhile (Glyph.satisfies isBlank) =
        .char '"' :: (behind ++ more) := by
      rw [List.dropWhile_append, hdrop]
      rfl
    rw [lexeme, hdrop']
    change stringLexeme '"' _ = _
    rw [stringLexeme, hclosed]
  · rw [hliteral, glyphBytes_map_char, hchars]

/-- A literal that was cut off is closed by a quote on the next line, and can be
decoded. -/
theorem lexeme_append_quote {text : List Glyph}
    (hopen : lexeme text = .stopped .unterminatedString) (later : List Glyph) :
    ∃ literal content,
      lexeme (text ++ .char '\n' :: .char '"' :: later) = .token .string literal later ∧
        Literal.unquote (glyphBytes literal) = .ok content := by
  obtain ⟨behind, hdrop, hcut⟩ := dropWhile_of_unterminated hopen
  obtain ⟨literal, hclosed⟩ := literalOver_closed hcut later
  obtain ⟨hlexeme, content, hcontent⟩ := lexeme_append_closed hdrop hclosed
  exact ⟨literal, content, hlexeme, hcontent⟩

end Lexer

/-! ### Where reading halts -/

namespace Nest

theorem supply_ne_fault (depth : Nat) (forms : List OpenForm) (value : Value)
    (error : ReadError) : supply depth forms value ≠ .fault error := by
  intro hfault
  have hclosable := closable_supply depth forms value
  rw [hfault] at hclosable
  exact hclosable

theorem enter_fault {limit : Int} {nest : Nest} {form : OpenForm} {token : Token}
    {error : ReadError} (henter : nest.enter limit form token = .fault error) :
    error.fault.isIncomplete = false := by
  rw [enter] at henter
  split_ifs at henter
  cases henter
  rfl

/-- No token is a fault for want of more text. -/
theorem expression_fault {limit : Int} {nest : Nest} {token : Token} {error : ReadError}
    (hfault : nest.expression limit token = .fault error) :
    error.fault.isIncomplete = false := by
  rw [expression] at hfault
  split at hfault
  · cases hfault
  · split at hfault
    · exact absurd hfault (supply_ne_fault _ _ _ _)
    · cases hfault
      rfl
  · split at hfault
    · exact absurd hfault (supply_ne_fault _ _ _ _)
    · cases hfault
      rfl
  · exact absurd hfault (supply_ne_fault _ _ _ _)
  · exact enter_fault hfault
  · exact enter_fault hfault
  · cases hfault
    rfl
  · cases hfault
    rfl

@[inherit_doc expression_fault]
theorem step_fault {limit : Int} {nest : Nest} {token : Token} {error : ReadError}
    (hfault : nest.step limit token = .fault error) : error.fault.isIncomplete = false := by
  rw [step] at hfault
  split at hfault
  · exact absurd hfault (supply_ne_fault _ _ _ _)
  · split_ifs at hfault
    cases hfault
    rfl
  · cases hfault
    rfl
  · exact absurd hfault (supply_ne_fault _ _ _ _)
  · cases hfault
  · cases hfault
    rfl
  · exact expression_fault hfault

/-- A text that ends in the middle of a form without any other fault is incomplete. -/
theorem isIncomplete_unfinished (nest : Nest) (token : Token) :
    (nest.unfinished ⟨token, none⟩).fault.isIncomplete = true := by
  obtain ⟨depth, forms⟩ := nest
  rcases forms with _ | ⟨_ | ⟨opener, done⟩ | ⟨opener, done⟩ | ⟨opener, done, tail⟩, outer⟩ <;>
    rfl

/-- Where an expression is expected, a token that cannot be read is the fault. -/
theorem unfinished_lexical {nest : Nest} (hexpects : Expects nest.forms) (token : Token)
    (fault : Lexer.Fault) :
    nest.unfinished ⟨token, some fault⟩ = ⟨.lexical fault, token.source⟩ := by
  obtain ⟨depth, forms⟩ := nest
  rcases forms with _ | ⟨_ | ⟨opener, done⟩ | ⟨opener, done⟩ | ⟨opener, done, tail⟩, outer⟩
  · rfl
  · rfl
  · rfl
  · rfl
  · exact hexpects.elim

theorem close_of_not_expects {forms : List OpenForm} (hclosed : ¬Expects forms) :
    ∃ opener done tail outer, forms = .close opener done tail :: outer := by
  rcases forms with _ | ⟨_ | ⟨opener, done⟩ | ⟨opener, done⟩ | ⟨opener, done, tail⟩, outer⟩
  · exact absurd trivial hclosed
  · exact absurd trivial hclosed
  · exact absurd trivial hclosed
  · exact absurd trivial hclosed
  · exact ⟨opener, done, tail, outer, rfl⟩

end Nest

namespace TokenReader

/-- What some tokens lead to whatever follows them: a fault that more text does not
remove, or another state from which reading goes on. -/
inductive Leads (limit : Int) (tokens : List Token) (nest : Nest) (found : List Value) : Prop
  | fault (error : ReadError) (hdefinite : error.fault.isIncomplete = false)
      (hall : ∀ reader : TokenReader, reader.limit = limit → ∀ later,
        (readAllOver reader (tokens ++ later) nest found).1 = .error error)
  | on (after : Nest) (sofar : List Value)
      (hall : ∀ reader : TokenReader, reader.limit = limit → ∀ later,
        (readAllOver reader (tokens ++ later) nest found).1 =
          (readAllOver reader later after sofar).1)

/-- Behind a token that is no fault, the other tokens decide. -/
theorem Leads.cons {limit : Int} {token : Token} {tokens : List Token} {nest after : Nest}
    {found sofar : List Value} (hleads : Leads limit tokens after sofar)
    (hafter : ∀ (reader : TokenReader) (rest : List Token),
      reader.continueAll rest found (nest.step limit token) =
        (readAllOver reader rest after sofar).1) :
    Leads limit (token :: tokens) nest found := by
  rcases hleads with ⟨error, hdefinite, hall⟩ | ⟨last, all, hall⟩
  · refine .fault error hdefinite fun reader hlimit later => ?_
    rw [List.cons_append, readAllOver_cons, hlimit, hafter]
    exact hall reader hlimit later
  · refine .on last all fun reader hlimit later => ?_
    rw [List.cons_append, readAllOver_cons, hlimit, hafter]
    exact hall reader hlimit later

theorem leads (limit : Int) (tokens : List Token) (nest : Nest) (found : List Value) :
    Leads limit tokens nest found := by
  induction tokens generalizing nest found with
  | nil => exact .on nest found fun _ _ _ => rfl
  | cons token tokens ih =>
      cases hstep : nest.step limit token with
      | more after =>
          refine (ih after found).cons fun reader rest => ?_
          rw [hstep]
          rfl
      | done value =>
          refine (ih .top (value :: found)).cons fun reader rest => ?_
          rw [hstep]
          rfl
      | fault error =>
          refine .fault error (Nest.step_fault hstep) fun reader hlimit later => ?_
          rw [List.cons_append, readAllOver_cons, hlimit, hstep]
          rfl

/-- How far reading has come when a text ends: the lexer at its end, the forms that are
open and the values found.  With another line behind the text, reading goes on from
there. -/
structure Halt (file text : Bytes) (limit : Int) where
  lexer : Lexer
  nest : Nest
  found : List Value
  clear : lexer.fault = none
  final : lexer.next.1.kind.isFinal = true
  ending : (ofBytes file text limit).ending = ⟨lexer.next.1, lexer.next.2.fault⟩
  result : (ofBytes file text limit).readAll.1 =
    (readAllOver (ofBytes file text limit) [] nest found).1
  endingLater : ∀ later, (ofBytes file (text ++ 10 :: later) limit).ending =
    (lexer.withLine (glyphs later)).tokens.2.1
  resultLater : ∀ later, (ofBytes file (text ++ 10 :: later) limit).readAll.1 =
    (readAllOver (ofBytes file (text ++ 10 :: later) limit)
      (lexer.withLine (glyphs later)).tokens.1 nest found).1

/-- Reading comes to the end of the text, or to a fault that no later line removes. -/
theorem halts_or_definite (file text : Bytes) (limit : Int) :
    Nonempty (Halt file text limit) ∨
      ∃ error : ReadError, error.fault.isIncomplete = false ∧
        (ofBytes file text limit).readAll.1 = .error error ∧
        ∀ later, (ofBytes file (text ++ 10 :: later) limit).readAll.1 = .error error := by
  obtain ⟨final, hclear, hfinal, hending, hlater⟩ :=
    @Lexer.tokens_withLine (Lexer.ofBytes file text) rfl
  have htokens : ∀ later, (Lexer.ofBytes file (text ++ 10 :: later)).tokens.1 =
      (Lexer.ofBytes file text).tokens.1 ++ (final.withLine (glyphs later)).tokens.1 := by
    intro later
    rw [Lexer.ofBytes_append_line]
    exact (hlater (glyphs later)).1
  rcases leads limit (Lexer.ofBytes file text).tokens.1 .top [] with
    ⟨error, hdefinite, hall⟩ | ⟨nest, found, hall⟩
  · refine .inr ⟨error, hdefinite, ?_, fun later => ?_⟩
    · have hread := hall (ofBytes file text limit) rfl []
      rwa [List.append_nil] at hread
    · have hread := hall (ofBytes file (text ++ 10 :: later) limit) rfl
        (final.withLine (glyphs later)).tokens.1
      rwa [← htokens] at hread
  · refine .inl ⟨final, nest, found, hclear, hfinal, hending, ?_, fun later => ?_,
      fun later => ?_⟩
    · have hread := hall (ofBytes file text limit) rfl []
      rwa [List.append_nil] at hread
    · have hnext := (hlater (glyphs later)).2
      rwa [← Lexer.ofBytes_append_line] at hnext
    · have hread := hall (ofBytes file (text ++ 10 :: later) limit) rfl
        (final.withLine (glyphs later)).tokens.1
      rwa [← htokens] at hread

theorem error_of_readAllOver_nil {reader : TokenReader} {nest : Nest} {found : List Value}
    {error : ReadError} (hread : (readAllOver reader [] nest found).1 = .error error) :
    error = nest.unfinished reader.ending := by
  rw [readAllOver] at hread
  split_ifs at hread
  cases hread
  rfl

theorem readAllOver_nil_of_fault {reader : TokenReader} (hfault : reader.ending.fault ≠ none)
    (nest : Nest) (found : List Value) :
    (readAllOver reader [] nest found).1 = .error (nest.unfinished reader.ending) := by
  rw [readAllOver, if_neg (mt And.right hfault)]

/-- At the end of a text there is nothing but white space, or a token that cannot be
read. -/
theorem Halt.ended_or_stopped {file text : Bytes} {limit : Int} (halt : Halt file text limit) :
    (Lexer.lexeme halt.lexer.scanner.ahead = .ended ∧ halt.lexer.next.2.fault = none) ∨
      ∃ fault, Lexer.lexeme halt.lexer.scanner.ahead = .stopped fault ∧
        halt.lexer.next.1.kind = .error ∧ halt.lexer.next.2.fault = some fault := by
  rcases Lexer.lexeme_of_final halt.clear halt.final with ⟨hended, _, hclear⟩ | hstopped
  · exact .inl ⟨hended, hclear⟩
  · exact .inr hstopped

/-! ### Faults that stay -/

/-- A stray byte at the end of a text is one with every later line. -/
theorem Halt.later_stray {file text : Bytes} {limit : Int} (halt : Halt file text limit)
    {byte : UInt8} (hkind : halt.lexer.next.1.kind = .error)
    (hfault : halt.lexer.next.2.fault = some (.strayByte byte)) (later : Bytes) :
    (ofBytes file (text ++ 10 :: later) limit).readAll.1 =
      .error (halt.nest.unfinished (ofBytes file text limit).ending) := by
  have hnext := Lexer.next_withLine halt.clear (by simp [hkind]) (by simp [hfault])
    (glyphs later)
  have htokens := @Lexer.tokens_of_final (halt.lexer.withLine (glyphs later))
    (by rw [hnext]; exact halt.final)
  rw [hnext] at htokens
  have hsame : (ofBytes file (text ++ 10 :: later) limit).ending =
      (ofBytes file text limit).ending := by
    rw [halt.endingLater, halt.ending, htokens]
    rfl
  have hstopped : (ofBytes file (text ++ 10 :: later) limit).ending.fault ≠ none := by
    simp [hsame, halt.ending, hfault]
  rw [halt.resultLater, htokens, readAllOver_nil_of_fault hstopped, hsame]

/-- A literal behind the tail of a list is out of place, whether it ends or not. -/
theorem Halt.later_afterTail {file text : Bytes} {limit : Int} (halt : Halt file text limit)
    {opener : Token} {done : List Value} {tail : Value} {outer : List OpenForm}
    (hforms : halt.nest.forms = .close opener done tail :: outer)
    (hfault : halt.lexer.next.2.fault = some .unterminatedString) (later : Bytes) :
    (ofBytes file (text ++ 10 :: later) limit).readAll.1 =
      .error ⟨.afterTail, halt.lexer.next.1.source⟩ := by
  obtain ⟨hsource, ⟨hkind, hclear⟩ | ⟨hkind, hstopped⟩⟩ :=
    Lexer.next_withLine_string halt.clear hfault (glyphs later)
  · have hmore := @Lexer.tokens_of_more (halt.lexer.withLine (glyphs later)) halt.clear
      (by rw [hkind]; rfl)
    rw [halt.resultLater, hmore, readAllOver_cons]
    simp only [Nest.step, hforms, hkind, hsource, continueAll]
  · have hlast := @Lexer.tokens_of_final (halt.lexer.withLine (glyphs later))
      (by rw [hkind]; rfl)
    have hending := halt.endingLater later
    rw [hlast] at hending
    have hnone : (ofBytes file (text ++ 10 :: later) limit).ending.fault ≠ none := by
      rw [hending]
      exact hstopped
    rw [halt.resultLater, hlast, readAllOver_nil_of_fault hnone, hending]
    obtain ⟨fault, hsome⟩ := Option.ne_none_iff_exists'.mp hstopped
    simp only [Nest.unfinished, hforms, hsome, hsource]

theorem Halt.later_of_definite {file text : Bytes} {limit : Int} (halt : Halt file text limit)
    {error : ReadError} (hread : (ofBytes file text limit).readAll.1 = .error error)
    (hdefinite : error.fault.isIncomplete = false) (later : Bytes) :
    (ofBytes file (text ++ 10 :: later) limit).readAll.1 = .error error := by
  rw [halt.result] at hread
  have herror := error_of_readAllOver_nil hread
  rcases halt.ended_or_stopped with ⟨_, hfault⟩ | ⟨_ | byte, _, hkind, hfault⟩
  · rw [herror, halt.ending, hfault, Nest.isIncomplete_unfinished] at hdefinite
    cases hdefinite
  · -- An open literal is a fault of its own only behind the tail of a list.
    by_cases hexpects : Nest.Expects halt.nest.forms
    · rw [herror, halt.ending, hfault, Nest.unfinished_lexical hexpects] at hdefinite
      cases hdefinite
    · obtain ⟨opener, done, tail, outer, hforms⟩ := Nest.close_of_not_expects hexpects
      rw [halt.later_afterTail hforms hfault, herror, halt.ending, hfault]
      simp only [Nest.unfinished, hforms]
  · rw [halt.later_stray hkind hfault, herror]

/-! ### Lines that complete a text -/

theorem Halt.cuts_later {file text : Bytes} {limit : Int} (halt : Halt file text limit)
    (line : List Char) :
    Lexer.Cuts (halt.lexer.scanner.ahead ++ .char '\n' :: line.map .char)
      (halt.lexer.withLine (glyphs (encode line))).tokens.1
      (ofBytes file (text ++ 10 :: encode line) limit).ending.fault := by
  have hcuts := @Lexer.cuts_tokens (halt.lexer.withLine (glyphs (encode line))) halt.clear
  rw [← halt.endingLater (encode line)] at hcuts
  have hahead : (halt.lexer.withLine (glyphs (encode line))).scanner.ahead =
      halt.lexer.scanner.ahead ++ .char '\n' :: line.map .char := by
    rw [glyphs_encode]
    rfl
  rwa [hahead] at hcuts

/-- Where no expression is wanting, parentheses complete a text. -/
theorem Halt.completed_by_closers {file text : Bytes} {limit : Int}
    (halt : Halt file text limit)
    (hended : Lexer.lexeme halt.lexer.scanner.ahead = .ended)
    (hsettled : Nest.Settled halt.nest.forms) :
    ∃ later values, (ofBytes file (text ++ 10 :: later) limit).readAll.1 = .ok values := by
  have hcuts := halt.cuts_later (Lexer.closers (Nest.lists halt.nest.forms))
  obtain ⟨hkinds, hlength, hfault⟩ :=
    (hcuts.congr (Lexer.lexeme_append_line hended _)).closers
  have hclosable : (Nest.Progress.more halt.nest).Closable _ := ⟨hsettled, hlength.symm⟩
  obtain ⟨values, hvalues⟩ := continueAll_closers hfault hkinds hclosable halt.found
  exact ⟨_, values, by rw [halt.resultLater]; exact hvalues⟩

/-- Where an expression is expected, a line that goes on with a value and then closes
the lists completes the text. -/
theorem Halt.completed_by_value {file text : Bytes} {limit : Int}
    (halt : Halt file text limit) {line : List Char} {kind : Token.Kind}
    {taken : List Glyph}
    (hlexeme : Lexer.lexeme (halt.lexer.scanner.ahead ++ .char '\n' :: line.map .char) =
      .token kind taken ((Lexer.closers (Nest.lists halt.nest.forms)).map .char))
    (hstep : ∀ token : Token, token.kind = kind → token.text = glyphBytes taken →
      ∃ value, halt.nest.step limit token =
        Nest.supply halt.nest.depth halt.nest.forms value) :
    ∃ later values, (ofBytes file (text ++ 10 :: later) limit).readAll.1 = .ok values := by
  obtain ⟨token, more, htokens, hkind, htext, hrest⟩ := (halt.cuts_later line).of_token hlexeme
  obtain ⟨hkinds, hlength, hfault⟩ := hrest.closers
  obtain ⟨value, hvalue⟩ := hstep token hkind htext
  obtain ⟨values, hvalues⟩ := readAllOver_value_closers hfault hvalue hkinds hlength halt.found
  exact ⟨encode line, values, by rw [halt.resultLater, htokens]; exact hvalues⟩

theorem Halt.completed_by_symbol {file text : Bytes} {limit : Int}
    (halt : Halt file text limit)
    (hended : Lexer.lexeme halt.lexer.scanner.ahead = .ended)
    (hexpects : Nest.Expects halt.nest.forms) :
    ∃ later values, (ofBytes file (text ++ 10 :: later) limit).readAll.1 = .ok values := by
  have hlexeme : Lexer.lexeme
      (('x' :: Lexer.closers (Nest.lists halt.nest.forms)).map .char) =
        .token .symbol [.char 'x']
          ((Lexer.closers (Nest.lists halt.nest.forms)).map .char) := by
    cases Nest.lists halt.nest.forms <;> rfl
  refine halt.completed_by_value ((Lexer.lexeme_append_line hended _).trans hlexeme) ?_
  intro token hkind _
  rw [Nest.step_eq_expression hexpects (by simp [hkind]) (by simp [hkind])]
  simp only [Nest.expression, hkind]
  exact ⟨_, rfl⟩

theorem Halt.completed_by_quote {file text : Bytes} {limit : Int}
    (halt : Halt file text limit)
    (hopen : Lexer.lexeme halt.lexer.scanner.ahead = .stopped .unterminatedString)
    (hexpects : Nest.Expects halt.nest.forms) :
    ∃ later values, (ofBytes file (text ++ 10 :: later) limit).readAll.1 = .ok values := by
  obtain ⟨literal, content, hlexeme, hcontent⟩ := Lexer.lexeme_append_quote hopen
    ((Lexer.closers (Nest.lists halt.nest.forms)).map .char)
  have hline : Lexer.lexeme (halt.lexer.scanner.ahead ++ .char '\n' ::
      ('"' :: Lexer.closers (Nest.lists halt.nest.forms)).map .char) =
        .token .string literal ((Lexer.closers (Nest.lists halt.nest.forms)).map .char) :=
    hlexeme
  refine halt.completed_by_value hline ?_
  intro token hkind htext
  rw [Nest.step_eq_expression hexpects (by simp [hkind]) (by simp [hkind])]
  simp only [Nest.expression, hkind, htext, hcontent]
  exact ⟨_, rfl⟩

theorem Halt.completed_of_incomplete {file text : Bytes} {limit : Int}
    (halt : Halt file text limit) {error : ReadError}
    (hread : (ofBytes file text limit).readAll.1 = .error error)
    (hincomplete : error.fault.isIncomplete = true) :
    ∃ later values, (ofBytes file (text ++ 10 :: later) limit).readAll.1 = .ok values := by
  rw [halt.result] at hread
  have herror := error_of_readAllOver_nil hread
  -- What completes the text depends on whether an expression may stand at its end, and
  -- on whether a literal is open there.
  by_cases hexpects : Nest.Expects halt.nest.forms
  · rcases halt.ended_or_stopped with ⟨hended, _⟩ | ⟨_ | byte, hstopped, _, hfault⟩
    · exact halt.completed_by_symbol hended hexpects
    · exact halt.completed_by_quote hstopped hexpects
    · rw [herror, halt.ending, hfault, Nest.unfinished_lexical hexpects] at hincomplete
      cases hincomplete
  · obtain ⟨opener, done, tail, outer, hforms⟩ := Nest.close_of_not_expects hexpects
    rcases halt.ended_or_stopped with ⟨hended, _⟩ | ⟨fault, _, _, hfault⟩
    · exact halt.completed_by_closers hended (by rw [hforms]; trivial)
    · rw [herror, halt.ending, hfault] at hincomplete
      simp only [Nest.unfinished, hforms] at hincomplete
      cases hincomplete

/-- A fault that is not for want of more text stays with every later line. -/
theorem readAll_later_of_definite {file text : Bytes} {limit : Int} {error : ReadError}
    (hread : (ofBytes file text limit).readAll.1 = .error error)
    (hdefinite : error.fault.isIncomplete = false) (later : Bytes) :
    (ofBytes file (text ++ 10 :: later) limit).readAll.1 = .error error := by
  rcases halts_or_definite file text limit with ⟨⟨halt⟩⟩ | ⟨error', _, hread', hlater⟩
  · exact halt.later_of_definite hread hdefinite later
  · rw [hread] at hread'
    cases hread'
    exact hlater later

/-- An incomplete text is completed by some later line. -/
theorem readAll_later_of_incomplete {file text : Bytes} {limit : Int} {error : ReadError}
    (hread : (ofBytes file text limit).readAll.1 = .error error)
    (hincomplete : error.fault.isIncomplete = true) :
    ∃ later values, (ofBytes file (text ++ 10 :: later) limit).readAll.1 = .ok values := by
  rcases halts_or_definite file text limit with ⟨⟨halt⟩⟩ | ⟨error', hdefinite, hread', _⟩
  · exact halt.completed_of_incomplete hread hincomplete
  · rw [hread] at hread'
    cases hread'
    rw [hdefinite] at hincomplete
    cases hincomplete

end TokenReader

namespace Reader

theorem readProgram_tokens (file text : Bytes) :
    Reader.tokens.readProgram file (.ofBytes text) =
      (TokenReader.ofBytes file text TokenReader.defaultLimit).readAll.1.mapError
        .ofReadError := rfl

theorem append_line (text later : Bytes) : text ++ utf8 "\n" ++ later = text ++ 10 :: later := by
  rw [List.append_assoc]
  rfl

/-- A text is incomplete exactly if it cannot be read and a later line can complete it.
Where reading fails for another reason, it fails in the same way, with the same message
at the same place, whatever the later lines are. -/
theorem incomplete_iff_completable (file text : Bytes) :
    ((∃ failure, Reader.tokens.readProgram file (.ofBytes text) = .error failure ∧
        failure.isIncomplete = true) ↔
      (∃ failure, Reader.tokens.readProgram file (.ofBytes text) = .error failure) ∧
        ∃ later values, Reader.tokens.readProgram file
          (.ofBytes (text ++ utf8 "\n" ++ later)) = .ok values) ∧
      ∀ failure, Reader.tokens.readProgram file (.ofBytes text) = .error failure →
        failure.isIncomplete = false → ∀ later,
          Reader.tokens.readProgram file (.ofBytes (text ++ utf8 "\n" ++ later)) =
            .error failure := by
  simp only [append_line, readProgram_tokens]
  cases hread : (TokenReader.ofBytes file text TokenReader.defaultLimit).readAll.1 with
  | ok values => simp [Except.mapError]
  | error error =>
      have hdefinite : error.fault.isIncomplete = false → ∀ later : Bytes,
          (TokenReader.ofBytes file (text ++ 10 :: later) TokenReader.defaultLimit).readAll.1 =
            .error error :=
        TokenReader.readAll_later_of_definite hread
      have hincomplete : (Failure.ofReadError error).isIncomplete = error.fault.isIncomplete :=
        rfl
      refine ⟨⟨?_, ?_⟩, ?_⟩
      · rintro ⟨failure, hfailure, hmore⟩
        cases hfailure
        obtain ⟨later, values, hlater⟩ :=
          TokenReader.readAll_later_of_incomplete hread (hincomplete ▸ hmore)
        exact ⟨⟨_, rfl⟩, later, values, by rw [hlater]; rfl⟩
      · rintro ⟨_, later, values, hlater⟩
        refine ⟨_, rfl, ?_⟩
        cases hkind : error.fault.isIncomplete with
        | true => exact hincomplete.trans hkind
        | false =>
            rw [hdefinite hkind later] at hlater
            cases hlater
      · rintro failure hfailure hfalse later
        cases hfailure
        rw [hdefinite (hincomplete ▸ hfalse) later]
        rfl

/-- A literal and a list are left open, and a parenthesis closes no list. -/
theorem incomplete_iff_completable_open :
    (∃ later values, Reader.tokens.readProgram defaultName
        (.ofBytes (utf8 "('a \"b\\" ++ utf8 "\n" ++ later)) = .ok values) ∧
      ∀ later, ∃ failure, Reader.tokens.readProgram defaultName
        (.ofBytes (utf8 "a)" ++ utf8 "\n" ++ later)) = .error failure := by
  refine ⟨((incomplete_iff_completable defaultName (utf8 "('a \"b\\")).1.mp ?_).2, ?_⟩
  · exact ⟨_, rfl, by decide +kernel⟩
  · exact fun later => ⟨_, (incomplete_iff_completable defaultName (utf8 "a)")).2 _ rfl
      (by decide +kernel) later⟩

end Reader

end MiniLisp
