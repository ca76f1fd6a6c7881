import MiniLisp.Proofs.ReaderAgreement
import MiniLisp.Proofs.Spelling

/-!
Reading a spelling with the token reader.  What the token reader reads can be spelled,
and nests no deeper than the limit; and the tokens of a spelling derive the value that
is spelled.
-/

namespace MiniLisp

def Value.depth : Value → Nat
  | .pair head tail => max (depth head + 1) (depth tail)
  | _ => 0

/-! ### What is read can be spelled -/

/-- The text of a symbol or string token is one. -/
structure Token.Formed (token : Token) : Prop where
  symbol : token.kind = .symbol →
    ∃ first rest, Word first rest ∧ token.text = encode (first :: rest)
  string : token.kind = .string →
    ∃ body, Literal.Body body ∧ token.text = encode (Literal.enclose body)

theorem isSymbolChar_of_noMark {c : Char} (hmark : Lexer.isMark c = false)
    (hblank : isBlank c = false) : Lexer.isSymbolChar c = true := by
  simp only [Lexer.isMark, Bool.or_eq_false_iff] at hmark
  simp [Lexer.isSymbolChar, Lexer.isDelimiter, hmark, hblank]

theorem startsInt_of_append {c : Char} {behind later : List Glyph}
    (hint : Lexer.startsInt c (behind ++ later) = false) :
    Lexer.startsInt c behind = false := by
  rcases behind with _ | ⟨glyph, behind⟩
  · simp only [Lexer.startsInt, Bool.or_eq_false_iff] at hint ⊢
    exact ⟨hint.1, by simp⟩
  · exact hint

/-- A token that is cut from a text has the text of its kind. -/
theorem formed_of_starts {token : Token} {c : Char} {behind taken rest : List Glyph}
    (hblank : isBlank c = false) (hstarts : Lexer.Starts c behind token.kind taken rest)
    (htext : token.text = glyphBytes taken) : token.Formed := by
  generalize hkind : token.kind = kind at hstarts
  constructor
  · intro hsymbol
    rw [hkind] at hsymbol
    subst hsymbol
    cases hstarts with
    | symbol hmark hint hdot =>
        obtain ⟨chars, htake, hchars⟩ := exists_chars_takeWhile Lexer.isSymbolChar behind
        rw [htake] at htext hdot
        have hbytes : glyphBytes (.char c :: chars.map .char) = encode (c :: chars) :=
          glyphBytes_map_char (c :: chars)
        refine ⟨c, chars, ⟨?_, hmark, ?_, ?_⟩, htext.trans hbytes⟩
        · simpa [isSymbolChar_of_noMark hmark hblank] using hchars
        · rw [← List.takeWhile_append_dropWhile (p := Glyph.satisfies Lexer.isSymbolChar)
            (l := behind), htake] at hint
          exact startsInt_of_append hint
        · rintro rfl rfl
          exact hdot rfl
  · intro hstring
    rw [hkind] at hstring
    subst hstring
    cases hstarts with
    | string hc hliteral =>
        subst hc
        obtain ⟨body, hbody, rfl⟩ := Lexer.body_of_literal hliteral
        exact ⟨body, hbody, htext.trans (glyphBytes_map_char _)⟩

theorem Lexer.Cuts.formed {text : List Glyph} {tokens : List Token} {fault : Option Fault}
    (hcuts : Cuts text tokens fault) : ∀ token ∈ tokens, token.Formed := by
  induction hcuts with
  | ended => simp
  | stopped => simp
  | @token text taken rest token tokens fault hlexeme htext hrest ih =>
      obtain ⟨c, behind, hdrop, hstarts⟩ := starts_of_lexeme hlexeme
      have hblank : isBlank c = false := eq_false_of_dropWhile hdrop
      rw [List.forall_mem_cons]
      exact ⟨formed_of_starts hblank hstarts htext, ih⟩

/-- A value that can be spelled, and nests inside of `outer` lists and quotes no deeper
than the limit. -/
structure Fits (limit : Int) (outer : Nat) (value : Value) : Prop where
  readable : Readable value
  within : 0 < limit → (outer : Int) + value.depth ≤ limit

theorem Fits.outside {limit : Int} {outer : Nat} {value : Value}
    (hfits : Fits limit (outer + 1) value) : Fits limit outer value := by
  refine ⟨hfits.readable, fun hlimit => ?_⟩
  have hwithin := hfits.within hlimit
  omega

theorem Fits.pair {limit : Int} {outer : Nat} {head tail : Value}
    (hhead : Fits limit (outer + 1) head) (htail : Fits limit outer tail) :
    Fits limit outer (.pair head tail) := by
  refine ⟨.pair hhead.readable htail.readable, fun hlimit => ?_⟩
  have hhead := hhead.within hlimit
  have htail := htail.within hlimit
  rw [Value.depth]
  omega

theorem Fits.ofSpine {limit : Int} {outer : Nat} {values : List Value} {tail : Value}
    (hvalues : ∀ value ∈ values, Fits limit (outer + 1) value)
    (htail : Fits limit outer tail) : Fits limit outer (.ofSpine values tail) := by
  apply List.foldrRecOn values Value.pair htail
  intro rest hrest value hmem
  exact .pair (hvalues value hmem) hrest

theorem Fits.leaf {limit : Int} {outer : Nat} {value : Value} {chars : List Char}
    (houter : 0 < limit → (outer : Int) ≤ limit) (hatom : Atom value chars) :
    Fits limit outer value := by
  refine ⟨.atom hatom, fun hlimit => ?_⟩
  have hdepth : value.depth = 0 := by cases hatom <;> rfl
  have hle := houter hlimit
  omega

theorem atom_symbol {name : String} (first : Char) (rest : List Char)
    (hname : utf8 name = encode (first :: rest)) (hword : Word first rest)
    (hupper : (first :: rest).map upperChar = first :: rest) :
    Atom (.symbol ⟨utf8 name⟩) (first :: rest) := by
  rw [hname]
  exact .symbol hword hupper

theorem atom_empty : Atom .empty ['N', 'I', 'L'] := by
  have hchars : ['N', 'I', 'L'].all Lexer.isSymbolChar = true := by decide
  refine atom_symbol 'N' ['I', 'L'] (by decide) ⟨?_, rfl, rfl, by decide⟩ ?_
  · exact List.all_eq_true.mp hchars
  · decide +kernel

theorem atom_quoteForm : Atom (.symbol .quoteForm) ['Q', 'U', 'O', 'T', 'E'] := by
  have hchars : ['Q', 'U', 'O', 'T', 'E'].all Lexer.isSymbolChar = true := by decide
  refine atom_symbol 'Q' ['U', 'O', 'T', 'E'] (by decide) ⟨?_, rfl, rfl, by decide⟩ ?_
  · exact List.all_eq_true.mp hchars
  · decide +kernel

theorem Admits.inside {limit : Int} {outer : Nat} (hadmits : Admits limit outer) :
    0 < limit → ((outer + 1 : Nat) : Int) ≤ limit := by
  intro hlimit
  have hle := hadmits hlimit
  omega

mutual

/-- An expression reads as a value that can be spelled and is within the limit. -/
theorem fits_of_phrase {limit : Int} {outer : Nat} {tokens : List Token} {value : Value}
    (hphrase : Phrase limit outer tokens value) (hformed : ∀ token ∈ tokens, token.Formed)
    (houter : 0 < limit → (outer : Int) ≤ limit) : Fits limit outer value := by
  match hphrase with
  | .int _ _ _ => exact .leaf houter (.int _)
  | .string hkind hvalue =>
      obtain ⟨body, hbody, htext⟩ := (hformed _ (by simp)).string hkind
      obtain ⟨chars, hchars⟩ := Literal.unquote_body hbody
      rw [htext, hchars] at hvalue
      cases hvalue
      exact .leaf houter (.text chars)
  | .symbol hkind =>
      obtain ⟨first, rest, hword, htext⟩ := (hformed _ (by simp)).symbol hkind
      rw [htext, intern_encode]
      refine .leaf houter (.symbol hword.upper ?_)
      simp [upperChar_upperChar]
  | .quote _ hadmits hquoted =>
      -- A quote nests like the list that it is spelled as.
      have hinner := fits_of_phrase hquoted (fun token hmem => hformed token (by simp [hmem]))
        hadmits.inside
      exact .pair (.leaf hadmits.inside atom_quoteForm)
        (.pair hinner (.leaf houter atom_empty))
  | .list _ hadmits hitems _ =>
      have hinner := fits_of_phrases hitems
        (fun token hmem => hformed token (by simp [hmem])) hadmits.inside
      exact .ofSpine hinner (.leaf houter atom_empty)
  | .dotted _ hadmits hitems _ _ htail _ =>
      have hinner := fits_of_phrases hitems
        (fun token hmem => hformed token (by simp [hmem])) hadmits.inside
      -- The tail was read inside of the list; it is spelled as the rest of the list, and
      -- so nests one list less than it did.
      have hlast := fits_of_phrase htail
        (fun token hmem => hformed token (by simp [hmem])) hadmits.inside
      exact .ofSpine hinner hlast.outside

theorem fits_of_phrases {limit : Int} {outer : Nat} {tokens : List Token}
    {values : List Value} (hphrases : Phrases limit outer tokens values)
    (hformed : ∀ token ∈ tokens, token.Formed)
    (houter : 0 < limit → (outer : Int) ≤ limit) :
    ∀ value ∈ values, Fits limit outer value := by
  match hphrases with
  | .nil => simp
  | .cons hfirst hrest =>
      rw [List.forall_mem_cons]
      exact ⟨fits_of_phrase hfirst (fun token hmem => hformed token (by simp [hmem])) houter,
        fits_of_phrases hrest (fun token hmem => hformed token (by simp [hmem])) houter⟩

end

namespace TokenReader

/-- What is read from open forms has a derivation from tokens of the text. -/
theorem phrase_of_readOver {reader after : TokenReader} {tokens taken : List Token}
    {nest : Nest} {value : Value} (hdepth : nest.depth = nest.forms.length)
    (hopened : Nest.Opened reader.limit nest.forms taken)
    (hread : reader.readOver tokens nest = (.ok value, after)) :
    ∃ more, (∀ token ∈ more, token ∈ tokens) ∧
      Phrase reader.limit 0 (taken ++ more) value := by
  induction tokens generalizing nest taken with
  | nil => simp [readOver] at hread
  | cons token tokens ih =>
      rw [readOver] at hread
      by_cases hkind : token.kind = .comment
      · rw [Nest.step_comment hkind] at hread
        obtain ⟨more, hmore, hphrase⟩ := ih hdepth hopened hread
        exact ⟨more, fun later hmem => by simp [hmore later hmem], hphrase⟩
      · have hsound := Nest.sound_step hdepth hopened hkind
        cases hstep : nest.step reader.limit token with
        | more nest' =>
            rw [hstep] at hread hsound
            obtain ⟨more, hmore, hphrase⟩ := ih hsound.1 hsound.2 hread
            refine ⟨token :: more, ?_, by simpa using hphrase⟩
            rw [List.forall_mem_cons]
            exact ⟨by simp, fun later hmem => by simp [hmore later hmem]⟩
        | done value' =>
            rw [hstep] at hread hsound
            cases hread
            exact ⟨[token], by simp, hsound⟩
        | fault error =>
            rw [hstep] at hread
            cases hread

/-- The first expression of a text is a value that can be spelled and is within the
limit. -/
theorem fits_of_readFirst {file text : Bytes} {limit : Int} {value : Value}
    (hread : (ofBytes file text limit).readFirst.1 = .ok value) : Fits limit 0 value := by
  obtain ⟨_, hcuts, hhonest⟩ := Lexer.tokens_ofBytes file text
  have houter : 0 < limit → ((0 : Nat) : Int) ≤ limit := fun hlimit => by omega
  have hfirst := (ofBytes file text limit).readFirst_eq rfl hcuts.isFinal hhonest
  rw [hread] at hfirst
  split_ifs at hfirst
  · cases hfirst
    exact .leaf houter atom_empty
  · rcases hover : (ofBytes file text limit).readOver (Lexer.ofBytes file text).tokens.1 .top
      with ⟨result, after⟩
    have hresult : result = .ok value := by
      rw [hfirst]
      exact (congrArg Prod.fst hover).symm
    rw [hresult] at hover
    obtain ⟨more, hmore, hphrase⟩ := phrase_of_readOver rfl .top hover
    exact fits_of_phrase hphrase (fun token hmem => hcuts.formed token (hmore token hmem)) houter

end TokenReader

/-! ### The tokens of a spelling -/

/-- What may follow an atom in a spelling: nothing, a space or the end of a list. -/
def Delimits : List Glyph → Prop
  | [] => True
  | glyph :: _ => glyph = .char ' ' ∨ glyph = .char ')'

/-- A run of characters ends where the atom does. -/
theorem split_of_delimits {p : Glyph → Bool} (hspace : p (.char ' ') = false)
    (hclose : p (.char ')') = false) {chars : List Char}
    (hchars : ∀ c ∈ chars, p (.char c) = true) {later : List Glyph}
    (hdelimits : Delimits later) :
    (chars.map Glyph.char ++ later).takeWhile p = chars.map Glyph.char ∧
      (chars.map Glyph.char ++ later).dropWhile p = later := by
  induction chars with
  | nil =>
      rcases later with _ | ⟨glyph, later⟩
      · exact ⟨rfl, rfl⟩
      · rcases hdelimits with rfl | rfl
        · simp [hspace]
        · simp [hclose]
  | cons c chars ih =>
      rw [List.forall_mem_cons] at hchars
      obtain ⟨htake, hdrop⟩ := ih hchars.2
      simp [hchars.1, htake, hdrop]

theorem Word.noNumber_append {first : Char} {rest : List Char} (hword : Word first rest)
    {later : List Glyph} (hdelimits : Delimits later) :
    Lexer.startsInt first (rest.map .char ++ later) = false := by
  have hnumber := hword.noNumber
  rcases rest with _ | ⟨c, rest⟩
  · simp only [Lexer.startsInt, Bool.or_eq_false_iff] at hnumber ⊢
    refine ⟨hnumber.1, ?_⟩
    rcases later with _ | ⟨glyph, later⟩
    · simp
    · rcases hdelimits with rfl | rfl <;> simp [Glyph.satisfies, Lexer.isDigit]
  · exact hnumber

theorem Word.isBlank_first {first : Char} {rest : List Char} (hword : Word first rest) :
    isBlank first = false := by
  have hfirst := hword.symbolChars first (by simp)
  simp only [Lexer.isSymbolChar, Lexer.isDelimiter, Bool.not_eq_true', Bool.or_eq_false_iff]
    at hfirst
  exact hfirst.2

namespace Lexer

/-- A space before a token is dropped. -/
theorem lexeme_space (text : List Glyph) : lexeme (.char ' ' :: text) = lexeme text := rfl

theorem lexemeFrom_of_noMark {c : Char} (hmark : isMark c = false) (behind : List Glyph) :
    lexemeFrom c behind =
      if startsInt c behind then runLexeme .int isDigit c behind
      else symbolLexeme c behind := by
  simp only [isMark, Bool.or_eq_false_iff, beq_eq_false_iff_ne] at hmark
  simp only [lexemeFrom, hmark, ↓reduceIte]
  rfl

end Lexer

/-- The first lexeme of a text is a token, and one that derives the value. -/
def LexedAs (text rest : List Glyph) (value : Value) : Prop :=
  ∃ kind taken, Lexer.lexeme text = .token kind taken rest ∧
    ∀ (limit : Int) (outer : Nat) (token : Token), token.kind = kind →
      token.text = glyphBytes taken → Phrase limit outer [token] value

theorem lexedAs_symbol {first : Char} {rest : List Char} (hword : Word first rest)
    (hupper : (first :: rest).map upperChar = first :: rest) {later : List Glyph}
    (hdelimits : Delimits later) :
    LexedAs ((first :: rest).map .char ++ later) later
      (.symbol ⟨encode (first :: rest)⟩) := by
  have hchars : ∀ c ∈ rest, Glyph.satisfies Lexer.isSymbolChar (.char c) = true :=
    fun c hmem => hword.symbolChars c (by simp [hmem])
  obtain ⟨htake, hdrop⟩ := split_of_delimits rfl rfl hchars hdelimits
  have hbytes : glyphBytes (.char first :: rest.map .char) = encode (first :: rest) :=
    glyphBytes_map_char (first :: rest)
  have hdot : ¬glyphBytes (.char first :: rest.map .char) = utf8 "." := by
    intro hdot
    obtain ⟨hfirst, hrest⟩ := glyphBytes_cons_eq_dot hdot
    exact hword.noDot hfirst (by simpa using hrest)
  refine ⟨.symbol, .char first :: rest.map .char, ?_, ?_⟩
  · rw [List.map_cons, List.cons_append, Lexer.lexeme_char hword.isBlank_first,
      Lexer.lexemeFrom_of_noMark hword.noMark, hword.noNumber_append hdelimits,
      if_neg Bool.false_ne_true, Lexer.symbolLexeme, Lexer.runLexeme, htake, hdrop, if_neg hdot]
  · intro limit outer token hkind htext
    have hvalue : Symbol.intern token.text = ⟨encode (first :: rest)⟩ := by
      rw [htext, hbytes, intern_encode, hupper]
    rw [← hvalue]
    exact .symbol hkind

theorem lexedAs_int (n : Int64) {later : List Glyph} (hdelimits : Delimits later) :
    LexedAs ((decimalChars n.toInt).map .char ++ later) later (.int n) := by
  obtain ⟨first, rest, hchars, hmark, hblank, hdigits, hstarts⟩ := decimalChars_spec n.toInt
  obtain ⟨htake, hdrop⟩ := split_of_delimits (p := Glyph.satisfies Lexer.isDigit) rfl rfl
    hdigits hdelimits
  have hbytes : glyphBytes (.char first :: rest.map .char) = decimal n.toInt := by
    rw [decimal_eq_encode, hchars]
    exact glyphBytes_map_char (first :: rest)
  refine ⟨.int, .char first :: rest.map .char, ?_, ?_⟩
  · rw [hchars, List.map_cons, List.cons_append, Lexer.lexeme_char hblank,
      Lexer.lexemeFrom_of_noMark hmark, hstarts, if_pos rfl, Lexer.runLexeme, htake, hdrop]
  · intro limit outer token hkind htext
    have hvalue : readInt? token.text = some n.toInt := by
      rw [htext, hbytes, readInt?_decimal]
    have hphrase : Phrase limit outer [token] (.int (Int64.ofInt n.toInt)) :=
      .int hkind hvalue ⟨n.le_toInt, Int.le_of_lt_add_one n.toInt_lt⟩
    rwa [Int64.ofInt_toInt] at hphrase

theorem lexedAs_text (chars : List Char) (later : List Glyph) :
    LexedAs ((Literal.enclose (chars.flatMap Literal.escapeChar)).map .char ++ later) later
      (.text (encode chars)) := by
  have hbody := Literal.body_flatMap_escapeChar chars
  refine ⟨.string, (Literal.enclose (chars.flatMap Literal.escapeChar)).map .char, ?_, ?_⟩
  · exact Lexer.lexeme_enclose hbody later
  · intro limit outer token hkind htext
    refine .string hkind ?_
    rw [htext, glyphBytes_map_char, ← Literal.quote_encode, Literal.unquote_quote]

/-- An atom is lexed as one token that derives it. -/
theorem lexedAs_atom {value : Value} {chars : List Char} (hatom : Atom value chars)
    {later : List Glyph} (hdelimits : Delimits later) :
    LexedAs (chars.map .char ++ later) later value := by
  cases hatom with
  | symbol hword hupper => exact lexedAs_symbol hword hupper hdelimits
  | int n => exact lexedAs_int n hdelimits
  | text chars => exact lexedAs_text chars later

/-! ### Lists -/

/-- What stands in a list behind its first item, and what the list is from there on. -/
inductive ListRest (limit : Int) (outer : Nat) : List Token → Value → Prop
  | proper {tokens : List Token} {values : List Value}
      (hitems : Phrases limit outer tokens values) :
      ListRest limit outer tokens (.ofList values)
  | dotted {tokens tailTokens : List Token} {dot : Token} {values : List Value} {tail : Value}
      (hitems : Phrases limit outer tokens values) (hdot : dot.kind = .dot)
      (htail : Phrase limit outer tailTokens tail) :
      ListRest limit outer (tokens ++ dot :: tailTokens) (.ofSpine values tail)

theorem ListRest.cons {limit : Int} {outer : Nat} {first rest : List Token}
    {head tail : Value} (hhead : Phrase limit outer first head)
    (hrest : ListRest limit outer rest tail) :
    ListRest limit outer (first ++ rest) (.pair head tail) := by
  cases hrest with
  | proper hitems => exact .proper (.cons hhead hitems)
  | dotted hitems hdot htail =>
      rw [← List.append_assoc]
      exact .dotted (.cons hhead hitems) hdot htail

/-- A first item and the rest of a list make a list. -/
theorem ListRest.enclose {limit : Int} {outer : Nat} {opener closer : Token}
    {first rest : List Token} {head tail : Value} (hopener : opener.kind = .openParen)
    (hadmits : Admits limit outer) (hhead : Phrase limit (outer + 1) first head)
    (hrest : ListRest limit (outer + 1) rest tail) (hcloser : closer.kind = .closeParen) :
    Phrase limit outer (opener :: (first ++ (rest ++ [closer]))) (.pair head tail) := by
  cases hrest with
  | proper hitems =>
      rw [← List.append_assoc]
      exact .list hopener hadmits (.cons hhead hitems) hcloser
  | dotted hitems hdot htail =>
      have hphrase := Phrase.dotted hopener hadmits (.cons hhead hitems) (by simp) hdot htail
        hcloser
      simpa [Value.ofSpine] using hphrase

/-- The tokens of the characters derive the value: an expression, or in a list what
stands behind its first item. -/
def ReadsAs (limit : Int) (value : Value) (chars : List Char) : (inList : Bool) → Prop
  | false => ∀ (outer : Nat) (rest : List Glyph) (tokens : List Token)
      (fault : Option Lexer.Fault), (0 < limit → (outer : Int) + value.depth ≤ limit) →
      Delimits rest → Lexer.Cuts (chars.map .char ++ rest) tokens fault →
      ∃ first later, tokens = first ++ later ∧ Phrase limit outer first value ∧
        Lexer.Cuts rest later fault
  | true => ∀ (outer : Nat) (rest : List Glyph) (tokens : List Token)
      (fault : Option Lexer.Fault), (0 < limit → (outer : Int) + value.depth ≤ limit) →
      Lexer.Cuts (chars.map .char ++ .char ')' :: rest) tokens fault →
      ∃ inner closer later, tokens = inner ++ closer :: later ∧
        ListRest limit (outer + 1) inner value ∧ closer.kind = .closeParen ∧
        Lexer.Cuts rest later fault

theorem Lexer.Cuts.of_lexedAs {text rest : List Glyph} {value : Value} {tokens : List Token}
    {fault : Option Fault} (hcuts : Cuts text tokens fault)
    (hlexed : LexedAs text rest value) (limit : Int) (outer : Nat) :
    ∃ token later, tokens = token :: later ∧ Phrase limit outer [token] value ∧
      Cuts rest later fault := by
  obtain ⟨kind, taken, hlexeme, hphrase⟩ := hlexed
  obtain ⟨token, later, htokens, hkind, htext, hrest⟩ := hcuts.of_token hlexeme
  exact ⟨token, later, htokens, hphrase limit outer token hkind htext, hrest⟩

theorem Lexer.Cuts.of_close {rest : List Glyph} {tokens : List Token} {fault : Option Fault}
    (hcuts : Cuts (.char ')' :: rest) tokens fault) :
    ∃ closer later, tokens = closer :: later ∧ closer.kind = .closeParen ∧
      Cuts rest later fault := by
  have hlexeme : lexeme (.char ')' :: rest) = .token .closeParen [.char ')'] rest := rfl
  obtain ⟨closer, later, htokens, hkind, _, hrest⟩ := hcuts.of_token hlexeme
  exact ⟨closer, later, htokens, hkind, hrest⟩

/-- Behind an item stands a space or the end of the list. -/
theorem Spelled.delimits {value : Value} {chars : List Char}
    (hspelled : Spelled value true chars) (rest : List Glyph) :
    Delimits (chars.map .char ++ .char ')' :: rest) := by
  cases hspelled with
  | next => exact .inl rfl
  | ended => exact .inr rfl
  | dotted => exact .inl rfl

theorem Spelled.readsAs {value : Value} {inList : Bool} {chars : List Char}
    (hspelled : Spelled value inList chars) (limit : Int) :
    ReadsAs limit value chars inList := by
  induction hspelled with
  | atom hatom =>
      intro outer rest tokens fault _ hdelimits hcuts
      obtain ⟨token, later, rfl, hphrase, hrest⟩ :=
        hcuts.of_lexedAs (lexedAs_atom hatom hdelimits) limit outer
      exact ⟨[token], later, rfl, hphrase, hrest⟩
  | @list head tail chars chars' hhead htail ihhead ihtail =>
      intro outer rest tokens fault hwithin _ hcuts
      rw [Value.depth] at hwithin
      have hlexeme : Lexer.lexeme
          (('(' :: (chars ++ (chars' ++ [')']))).map .char ++ rest) =
            .token .openParen [.char '(']
              (chars.map .char ++ (chars'.map .char ++ .char ')' :: rest)) := by
        simp [Lexer.lexeme_char, Lexer.lexemeFrom, isBlank, isAsciiBlank]
      obtain ⟨opener, inside, rfl, hopener, _, hcuts⟩ := hcuts.of_token hlexeme
      obtain ⟨first, behind, rfl, hfirst, hcuts⟩ :=
        ihhead (outer + 1) _ _ fault (by omega) (htail.delimits rest) hcuts
      obtain ⟨inner, closer, later, rfl, hinner, hcloser, hcuts⟩ :=
        ihtail outer rest _ fault (by omega) hcuts
      refine ⟨opener :: (first ++ (inner ++ [closer])), later, by simp, ?_, hcuts⟩
      have hadmits : Admits limit outer := by
        intro hlimit
        have hle := hwithin hlimit
        omega
      exact ListRest.enclose hopener hadmits hfirst hinner hcloser
  | @next head tail chars chars' hhead htail ihhead ihtail =>
      intro outer rest tokens fault hwithin hcuts
      rw [Value.depth] at hwithin
      have hspace : Lexer.lexeme
          ((' ' :: (chars ++ chars')).map .char ++ .char ')' :: rest) =
            Lexer.lexeme (chars.map .char ++ (chars'.map .char ++ .char ')' :: rest)) := by
        simp [Lexer.lexeme_space]
      obtain ⟨first, behind, rfl, hfirst, hcuts⟩ :=
        ihhead (outer + 1) _ _ fault (by omega) (htail.delimits rest) (hcuts.congr hspace)
      obtain ⟨inner, closer, later, rfl, hinner, hcloser, hcuts⟩ :=
        ihtail outer rest _ fault (by omega) hcuts
      exact ⟨first ++ inner, closer, later, by simp, .cons hfirst hinner, hcloser, hcuts⟩
  | ended =>
      intro outer rest tokens fault _ hcuts
      obtain ⟨closer, later, rfl, hcloser, hcuts⟩ := hcuts.of_close
      exact ⟨[], closer, later, rfl, .proper .nil, hcloser, hcuts⟩
  | @dotted value chars hatom hmore =>
      -- Only an atom stands behind a dot: a pair in that place continues the list.
      intro outer rest tokens fault _ hcuts
      have hdot : Lexer.lexeme
          ((' ' :: '.' :: ' ' :: chars).map .char ++ .char ')' :: rest) =
            .token .dot [.char '.'] (.char ' ' :: (chars.map .char ++ .char ')' :: rest)) := rfl
      obtain ⟨dot, behind, rfl, hkind, _, hcuts⟩ := hcuts.of_token hdot
      obtain ⟨token, last, rfl, hphrase, hcuts⟩ := (hcuts.congr (Lexer.lexeme_space _)).of_lexedAs
        (lexedAs_atom hatom (.inr rfl)) limit (outer + 1)
      obtain ⟨closer, later, rfl, hcloser, hcuts⟩ := hcuts.of_close
      exact ⟨dot :: [token], closer, later, rfl, .dotted .nil hkind hphrase, hcloser, hcuts⟩

/-! ### The first expression -/

theorem Phrase.not_onlyComments {limit : Int} {outer : Nat} {tokens : List Token}
    {value : Value} (hphrase : Phrase limit outer tokens value) :
    ¬TokenReader.OnlyComments tokens := by
  intro hcomments
  cases hphrase with
  | int hkind => simp [hkind] at hcomments
  | string hkind => simp [hkind] at hcomments
  | symbol hkind => simp [hkind] at hcomments
  | quote hkind => simp [hkind] at hcomments
  | list hopener => simp [hopener] at hcomments
  | dotted hopener => simp [hopener] at hcomments

namespace TokenReader

/-- Values that are found stay the first. -/
theorem found_of_readAllOver {reader : TokenReader} {tokens : List Token} {nest : Nest}
    {found values : List Value}
    (hread : (readAllOver reader tokens nest found).1 = .ok values) :
    found.reverse <+: values := by
  induction tokens generalizing nest found with
  | nil =>
      rw [readAllOver] at hread
      split_ifs at hread
      cases hread
      exact List.prefix_refl _
  | cons token tokens ih =>
      rw [readAllOver_cons] at hread
      cases hstep : nest.step reader.limit token with
      | more after =>
          rw [hstep] at hread
          exact ih hread
      | done value =>
          rw [hstep] at hread
          have hprefix := ih hread
          rw [List.reverse_cons] at hprefix
          exact (List.prefix_append _ _).trans hprefix
      | fault error =>
          rw [hstep] at hread
          cases hread

/-- The first of all expressions is the one that is read first. -/
theorem readOver_of_readAllOver {reader : TokenReader} {tokens : List Token} {value : Value}
    {rest : List Value} (hall : (readAllOver reader tokens .top []).1 = .ok (value :: rest)) :
    (reader.readOver tokens .top).1 = .ok value := by
  have hmore : ¬(Nest.top.forms = [] ∧ OnlyComments tokens ∧ reader.ending.fault = none) := by
    rintro ⟨_, hcomments, hfault⟩
    rw [readAllOver_onlyComments reader hcomments hfault] at hall
    cases hall
  rw [reader.readAllOver_eq_readOver hmore] at hall
  rcases hover : reader.readOver tokens .top with ⟨error | value', after⟩
  · rw [hover] at hall
    cases hall
  · rw [hover] at hall
    have hprefix := found_of_readAllOver hall
    simp only [List.reverse_nil, List.nil_append, List.reverse_cons] at hprefix
    obtain ⟨more, hmore⟩ := hprefix
    simp only [List.cons_append, List.nil_append, List.cons.injEq] at hmore
    rw [hmore.1]

/-- A text that is one expression is read as its value. -/
theorem readOver_of_phrase {reader : TokenReader} {tokens : List Token} {value : Value}
    (hphrase : Phrase reader.limit 0 tokens value) (hfault : reader.ending.fault = none) :
    (reader.readOver tokens .top).1 = .ok value := by
  have hphrases : Phrases reader.limit 0 (tokens ++ []) [value] := .cons hphrase .nil
  rw [List.append_nil] at hphrases
  exact readOver_of_readAllOver (readAllOver_program hphrases hfault [])

/-- A value that is within the limit is read back from its spelling. -/
theorem readFirst_spelled {value : Value} {chars : List Char}
    (hspelled : Spelled value false chars) {limit : Int}
    (hwithin : 0 < limit → (value.depth : Int) ≤ limit) (file : Bytes) :
    (ofBytes file (encode chars) limit).readFirst.1 = .ok value := by
  obtain ⟨_, hcuts, hhonest⟩ := Lexer.tokens_ofBytes file (encode chars)
  have hreader := (ofBytes file (encode chars) limit).readFirst_eq rfl hcuts.isFinal hhonest
  have hspelling := hcuts
  rw [glyphs_encode, ← List.append_nil (chars.map Glyph.char)] at hspelling
  obtain ⟨first, later, htokens, hphrase, hrest⟩ :=
    hspelled.readsAs limit 0 [] _ _ (by simpa using hwithin) trivial hspelling
  obtain ⟨rfl, hfault⟩ := hrest.of_ended rfl
  rw [List.append_nil] at htokens
  have hahead : (ofBytes file (encode chars) limit).ahead = first := htokens
  rw [hreader, hahead, if_neg (fun hnone => hphrase.not_onlyComments hnone.1)]
  exact readOver_of_phrase hphrase hfault

end TokenReader

end MiniLisp
