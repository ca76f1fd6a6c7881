import MiniLisp.Proofs.GrammarWalk
import MiniLisp.Proofs.ReadBack

/-!
Printing is inverted by reading.  A spelling is matched by the grammar as the value that
is spelled and nests as deeply as that value, so both readers read it back.
-/

namespace MiniLisp

theorem isGap_of_noBlank {c : Char} (hblank : isBlank c = false) : Grammar.isGap c = false := by
  cases hgap : Grammar.isGap c with
  | false => rfl
  | true =>
      simp only [Grammar.isGap, Bool.or_eq_true, beq_iff_eq] at hgap
      rcases hgap with ((rfl | rfl) | rfl) | rfl <;> cases hblank

theorem isSymbolGlyph_of_isSymbolChar {c : Char} (hc : Lexer.isSymbolChar c = true) :
    Grammar.isSymbolGlyph (.char c) = true := by
  simp only [Lexer.isSymbolChar, Lexer.isDelimiter, Bool.not_eq_true', Bool.or_eq_false_iff]
    at hc
  obtain ⟨⟨⟨⟨hopen, hclose⟩, hquote⟩, hstring⟩, hblank⟩ := hc
  have hgap := isGap_of_noBlank hblank
  -- A form feed is white space for the one reader and ends a symbol for the other.
  have hfeed : (c.toNat == 12) = false := by
    simp only [isBlank, isAsciiBlank, Bool.or_eq_false_iff, Bool.and_eq_false_iff,
      decide_eq_false_iff_not] at hblank
    simp only [beq_eq_false_iff_ne]
    omega
  simp [Grammar.isSymbolGlyph, Glyph.satisfies, Grammar.endsSymbol, hgap, hfeed, hopen, hclose,
    hquote, hstring]

/-- A spelling starts with neither white space nor a comment. -/
theorem Atom.first {value : Value} {chars : List Char} (hatom : Atom value chars) :
    ∃ c rest, chars = c :: rest ∧ isBlank c = false ∧ c ≠ ';' := by
  have hsemicolon : ∀ {c : Char}, Lexer.isMark c = false → c ≠ ';' := by
    rintro c hmark rfl
    cases hmark
  cases hatom with
  | symbol hword => exact ⟨_, _, rfl, hword.isBlank_first, hsemicolon hword.noMark⟩
  | int n =>
      obtain ⟨first, rest, hchars, hmark, hblank, _⟩ := decimalChars_spec n.toInt
      exact ⟨first, rest, hchars, hblank, hsemicolon hmark⟩
  | text chars => exact ⟨'"', _, rfl, rfl, by decide⟩

@[inherit_doc Atom.first]
theorem Spelled.first {value : Value} {chars : List Char}
    (hspelled : Spelled value false chars) :
    ∃ c rest, chars = c :: rest ∧ isBlank c = false ∧ c ≠ ';' := by
  cases hspelled with
  | atom hatom => exact hatom.first
  | list => exact ⟨'(', _, rfl, rfl, by decide⟩

namespace Grammar

theorem skipGaps_of_noBlank {c : Char} (hblank : isBlank c = false) (hcomment : c ≠ ';')
    (rest : List Glyph) : skipGaps (.char c :: rest) = .char c :: rest := by
  simp [skipGaps, skipGapsOver, Glyph.satisfies, Glyph.isChar, isGap_of_noBlank hblank,
    hcomment]

theorem part?_word {first : Char} {rest : List Char} (hword : Word first rest)
    (hupper : (first :: rest).map upperChar = first :: rest) {later : List Glyph}
    (hdelimits : Delimits later) :
    part? ((first :: rest).map .char ++ later) =
      some (.atom (.ok (.symbol ⟨encode (first :: rest)⟩)), later) := by
  have hchars : ∀ c ∈ rest, isSymbolGlyph (.char c) = true :=
    fun c hmem => isSymbolGlyph_of_isSymbolChar (hword.symbolChars c (by simp [hmem]))
  obtain ⟨htake, hdrop⟩ := split_of_delimits rfl rfl hchars hdelimits
  have hsymbol : symbolFrom (.char first) (rest.map .char ++ later) =
      (.atom (.ok (.symbol ⟨encode (first :: rest)⟩)), later) := by
    have hbytes : glyphBytes (.char first :: rest.map .char) = encode (first :: rest) :=
      glyphBytes_map_char (first :: rest)
    rw [symbolFrom, htake, hdrop, symbolNode, hbytes, intern_encode, hupper]
  have hfirst := isSymbolGlyph_of_isSymbolChar (hword.symbolChars first (by simp))
  rw [List.map_cons, List.cons_append, part?_of_isMark hword.noMark,
    hword.noNumber_append hdelimits, if_neg Bool.false_ne_true, hsymbol]
  split_ifs with hdot hmore
  · rfl
  · obtain ⟨c, rest, rfl⟩ := List.exists_cons_of_ne_nil (hword.noDot hdot)
    simp [hchars c (by simp)] at hmore
  · rfl

theorem part?_decimal (n : Int64) {later : List Glyph} (hdelimits : Delimits later) :
    part? ((decimalChars n.toInt).map .char ++ later) = some (.atom (.ok (.int n)), later) := by
  obtain ⟨first, rest, hchars, hmark, _, hdigits, hstarts⟩ := decimalChars_spec n.toInt
  obtain ⟨htake, hdrop⟩ := split_of_delimits (p := isDigit) rfl rfl hdigits hdelimits
  have hbytes : glyphBytes (.char first :: rest.map .char) = decimal n.toInt := by
    rw [decimal_eq_encode, hchars]
    exact glyphBytes_map_char (first :: rest)
  have hread : readInt64? (decimal n.toInt) = some n :=
    readInt64?_eq_some_iff.mpr ⟨n.toInt, readInt?_decimal n.toInt,
      ⟨n.le_toInt, Int.le_of_lt_add_one n.toInt_lt⟩, (Int64.ofInt_toInt n).symm⟩
  rw [hchars, List.map_cons, List.cons_append, part?_of_isMark hmark, hstarts, if_pos rfl,
    intFrom, htake, hdrop, intNode, hbytes, hread]

theorem part?_literal (chars : List Char) (later : List Glyph) :
    part? ((Literal.enclose (chars.flatMap Literal.escapeChar)).map .char ++ later) =
      some (.atom (.ok (.text (encode chars))), later) := by
  have hwalk := stringOver_body (Literal.body_flatMap_escapeChar chars) [.char '"'] later
  have htext : (Literal.enclose (chars.flatMap Literal.escapeChar)).map .char ++ later =
      .char '"' :: ((chars.flatMap Literal.escapeChar).map .char ++ .char '"' :: later) := by
    simp [Literal.enclose]
  have hnode : stringNode ((Literal.enclose (chars.flatMap Literal.escapeChar)).map .char) =
      .ok (.text (encode chars)) := by
    rw [stringNode, glyphBytes_map_char, ← Literal.quote_encode, Literal.unquote_quote]
  have hpart : part? (.char '"' :: ((chars.flatMap Literal.escapeChar).map .char ++
      .char '"' :: later)) = (stringOver [.char '"'] false
        ((chars.flatMap Literal.escapeChar).map .char ++ .char '"' :: later)).map
          fun found => (.atom (stringNode found.1), found.2) := rfl
  rw [htext, hpart, hwalk, ← hnode]
  rfl

/-- An atom is the part of an expression that it is spelled as. -/
theorem part?_atom {value : Value} {chars : List Char} (hatom : Atom value chars)
    {later : List Glyph} (hdelimits : Delimits later) :
    part? (skipGaps (chars.map .char ++ later)) = some (.atom (.ok value), later) := by
  have hskip : skipGaps (chars.map .char ++ later) = chars.map .char ++ later := by
    obtain ⟨c, rest, rfl, hblank, hcomment⟩ := hatom.first
    exact skipGaps_of_noBlank hblank hcomment _
  rw [hskip]
  cases hatom with
  | symbol hword hupper => exact part?_word hword hupper hdelimits
  | int n => exact part?_decimal n hdelimits
  | text chars => exact part?_literal chars later

/-! ### Matching a spelling -/

theorem walk_space (waiting : List Open) (text : List Glyph) :
    walk waiting (.char ' ' :: text) = walk waiting text := by
  rw [walk_eq, walk_eq]
  rfl

theorem walk_atom {waiting : List Open} (hwaiting : afterTail waiting = false) {value : Value}
    {chars : List Char} (hatom : Atom value chars) {later : List Glyph}
    (hdelimits : Delimits later) :
    walk waiting (chars.map .char ++ later) = resume (supply waiting (.ok value)) later := by
  rw [walk_of_part? hwaiting (part?_atom hatom hdelimits), take_atom, Option.bind_some]

/-- A list that has items and no tail ends. -/
theorem walk_close (items : List Value) (outer : List Open) (rest : List Glyph) :
    walk (.list ⟨items, [], false, none⟩ :: outer) (.char ')' :: rest) =
      resume (supply outer (.ok (.ofList items.reverse))) rest := by
  have hpart : part? (skipGaps (.char ')' :: rest)) = some (.closeParen, rest) := rfl
  rw [walk_of_part? rfl hpart]
  rfl

/-- A list that has items and a tail ends. -/
theorem walk_close_tail (item : Value) (items : List Value) (tail : Value)
    (outer : List Open) (rest : List Glyph) :
    walk (.list ⟨item :: items, [tail], true, none⟩ :: outer) (.char ')' :: rest) =
      resume (supply outer (.ok (.ofSpine (item :: items).reverse tail))) rest := by
  rw [walk_eq]
  rfl

/-- The grammar matches the characters as the value: an expression, or in a list that
has items what stands behind them. -/
def MatchesAs (value : Value) (chars : List Char) : (inList : Bool) → Prop
  | false => ∀ (waiting : List Open) (rest : List Glyph), afterTail waiting = false →
      Delimits rest →
      walk waiting (chars.map .char ++ rest) = resume (supply waiting (.ok value)) rest
  | true => ∀ (item : Value) (items : List Value) (outer : List Open) (rest : List Glyph),
      walk (.list ⟨item :: items, [], false, none⟩ :: outer)
          (chars.map .char ++ .char ')' :: rest) =
        resume (supply outer (.ok (.ofSpine (item :: items).reverse value))) rest

theorem matchesAs_spelled {value : Value} {inList : Bool} {chars : List Char}
    (hspelled : Spelled value inList chars) : MatchesAs value chars inList := by
  induction hspelled with
  | atom hatom =>
      intro waiting rest hwaiting hdelimits
      exact walk_atom hwaiting hatom hdelimits
  | @list head tail chars chars' hhead htail ihhead ihtail =>
      intro waiting rest hwaiting _
      have htext : ('(' :: (chars ++ (chars' ++ [')']))).map Glyph.char ++ rest =
          .char '(' :: (chars.map .char ++ (chars'.map .char ++ .char ')' :: rest)) := by
        simp
      have hpart : part? (skipGaps (.char '(' ::
          (chars.map .char ++ (chars'.map .char ++ .char ')' :: rest)))) =
            some (.openParen, chars.map .char ++ (chars'.map .char ++ .char ')' :: rest)) := rfl
      rw [htext, walk_of_part? hwaiting hpart]
      -- The new list gets its first item here, and the rest of the list stands behind it.
      change walk (.list .new :: waiting) _ = _
      rw [ihhead (.list .new :: waiting) _ rfl (htail.delimits rest)]
      exact ihtail head [] waiting rest
  | @next head tail chars chars' hhead htail ihhead ihtail =>
      intro item items outer rest
      have htext : (' ' :: (chars ++ chars')).map Glyph.char ++ .char ')' :: rest =
          .char ' ' :: (chars.map .char ++ (chars'.map .char ++ .char ')' :: rest)) := by
        simp
      rw [htext, walk_space, ihhead _ _ rfl (htail.delimits rest)]
      refine (ihtail head (item :: items) outer rest).trans ?_
      simp [Value.ofSpine]
  | ended =>
      intro item items outer rest
      exact walk_close (item :: items) outer rest
  | @dotted value chars hatom hmore =>
      intro item items outer rest
      have htext : (' ' :: '.' :: ' ' :: chars).map Glyph.char ++ .char ')' :: rest =
          .char ' ' :: .char '.' :: .char ' ' :: (chars.map .char ++ .char ')' :: rest) := rfl
      have hpart : part? (skipGaps (.char '.' :: .char ' ' ::
          (chars.map .char ++ .char ')' :: rest))) =
            some (.dot, .char ' ' :: (chars.map .char ++ .char ')' :: rest)) := rfl
      rw [htext, walk_space, walk_of_part? rfl hpart]
      change walk (.tail ⟨item :: items, [], true, none⟩ :: outer) _ = _
      have hdelimits : Delimits (.char ')' :: rest) := .inr rfl
      have hwaiting : afterTail (.tail ⟨item :: items, [], true, none⟩ :: outer) = false := rfl
      rw [walk_space, walk_atom hwaiting hatom hdelimits]
      exact walk_close_tail item items value outer rest

end Grammar

/-! ### How deeply a spelling nests -/

namespace Nesting

/-- The walk takes a text from one state to another. -/
inductive Passes (limit : Nat) : List Glyph → State → State → Prop
  | nil (state : State) : Passes limit [] state state
  | cons {glyph : Glyph} {rest : List Glyph} {state next last : State}
      (hstep : step limit state glyph = .next next) (hrest : Passes limit rest next last) :
      Passes limit (glyph :: rest) state last

theorem Passes.append {limit : Nat} {text text' : List Glyph} {state next last : State}
    (hfirst : Passes limit text state next) (hlast : Passes limit text' next last) :
    Passes limit (text ++ text') state last := by
  induction hfirst with
  | nil => exact hlast
  | cons hstep _ ih => exact .cons hstep (ih hlast)

theorem Passes.overflowOver_eq_none {limit : Nat} {text : List Glyph} {state last : State}
    (hpasses : Passes limit text state last) (offset : Nat) :
    overflowOver limit text offset state = none := by
  induction hpasses generalizing offset with
  | nil => rfl
  | cons hstep _ ih =>
      rw [overflowOver, hstep]
      exact ih _

/-- The state inside of `depth` lists, where no quote waits. -/
def State.inLists (mode : Mode) (depth : Nat) : State :=
  ⟨mode, depth, 0, List.replicate depth 0⟩

theorem endExpression_inLists (mode : Mode) (depth : Nat) :
    (State.inLists mode depth).endExpression = .inLists .between depth := by
  cases depth with
  | zero => rfl
  | succ depth => rfl

/-- An expression has ended inside of `depth` lists, or will end with its word. -/
def State.Rests (depth : Nat) (state : State) : Prop :=
  state = .inLists .between depth ∨ state = .inLists .word depth

theorem step_of_rests {limit depth : Nat} {state : State} (hrests : state.Rests depth)
    {glyph : Glyph} (hends : glyph.endsWord = true) :
    step limit state glyph = between limit (.inLists .between depth) glyph := by
  rcases hrests with rfl | rfl
  · rfl
  · change (if glyph.endsWord then between limit (State.inLists .word depth).endExpression glyph
      else _) = _
    rw [if_pos hends, endExpression_inLists]

theorem step_space {limit depth : Nat} {state : State} (hrests : state.Rests depth) :
    step limit state (.char ' ') = .next (.inLists .between depth) :=
  step_of_rests hrests rfl

theorem step_close {limit depth : Nat} {state : State} (hrests : state.Rests (depth + 1)) :
    step limit state (.char ')') = .next (.inLists .between depth) := by
  have hclose : between limit (.inLists .between (depth + 1)) (.char ')') =
      .next (State.inLists .between depth).endExpression := rfl
  rw [step_of_rests hrests rfl, hclose, endExpression_inLists]

theorem step_open {limit depth : Nat} (hroom : depth + 1 ≤ limit) :
    step limit (.inLists .between depth) (.char '(') =
      .next (.inLists .between (depth + 1)) := by
  have hopen : step limit (.inLists .between depth) (.char '(') =
      if limit < depth + 1 then .overflow else .next (.inLists .between (depth + 1)) := rfl
  rw [hopen, if_neg (by omega)]

/-- A word is passed if its first character starts one and no later one ends it. -/
theorem passes_word {limit depth : Nat} {first : Char} {rest : List Char}
    (hmark : Lexer.isMark first = false) (hblank : isBlank first = false)
    (hrest : ∀ c ∈ rest, (Glyph.char c).endsWord = false) :
    Passes limit ((first :: rest).map .char) (.inLists .between depth)
      (.inLists .word depth) := by
  have hword : Passes limit (rest.map .char) (.inLists .word depth) (.inLists .word depth) := by
    induction rest with
    | nil => exact .nil _
    | cons c rest ih =>
        rw [List.forall_mem_cons] at hrest
        refine .cons ?_ (ih hrest.2)
        change (if (Glyph.char c).endsWord then _ else _) = _
        rw [if_neg (by simp [hrest.1])]
  refine .cons ?_ hword
  change between limit (.inLists .between depth) (.char first) = _
  simp only [Lexer.isMark, Bool.or_eq_false_iff] at hmark
  simp only [isBlank, Bool.or_eq_false_iff] at hblank
  simp [between, Glyph.isAsciiBlank, Glyph.isChar, Glyph.satisfies, hmark, hblank]
  rfl

theorem endsWord_of_isSymbolChar {c : Char} (hc : Lexer.isSymbolChar c = true) :
    (Glyph.char c).endsWord = false := by
  simp only [Lexer.isSymbolChar, Lexer.isDelimiter, isBlank, Bool.not_eq_true',
    Bool.or_eq_false_iff] at hc
  simp [Glyph.endsWord, Glyph.isAsciiBlank, Glyph.satisfies, hc]

/-- A literal ends an expression, and opens no list. -/
theorem passes_enclose {limit depth : Nat} {body : List Char} (hbody : Literal.Body body) :
    Passes limit ((Literal.enclose body).map .char) (.inLists .between depth)
      (.inLists .between depth) := by
  have hstring : Passes limit ((body ++ ['"']).map .char) (.inLists (.string false) depth)
      (.inLists .between depth) := by
    induction hbody with
    | nil =>
        have hclose : step limit (.inLists (.string false) depth) (.char '"') =
            .next (State.inLists (.string false) depth).endExpression := rfl
        rw [endExpression_inLists] at hclose
        exact .cons hclose (.nil _)
    | @plain c rest hquote hslash _ ih =>
        refine .cons ?_ ih
        simp [step, State.inLists, Glyph.isChar, Glyph.satisfies, hquote, hslash]
    | escaped _ ih => exact .cons rfl (.cons rfl ih)
  exact .cons rfl hstring

/-- An atom opens no list. -/
theorem passes_atom {value : Value} {chars : List Char} (hatom : Atom value chars)
    (limit depth : Nat) :
    ∃ last : State, last.Rests depth ∧
      Passes limit (chars.map .char) (.inLists .between depth) last := by
  cases hatom with
  | @symbol first rest hword _ =>
      refine ⟨_, .inr rfl, passes_word hword.noMark hword.isBlank_first fun c hmem => ?_⟩
      exact endsWord_of_isSymbolChar (hword.symbolChars c (by simp [hmem]))
  | int n =>
      obtain ⟨first, rest, hchars, hmark, hblank, hdigits, _⟩ := decimalChars_spec n.toInt
      rw [hchars]
      refine ⟨_, .inr rfl, passes_word hmark hblank fun c hmem => ?_⟩
      obtain ⟨hmark, hblank⟩ := digit_noMark (hdigits c hmem)
      exact endsWord_of_isSymbolChar (isSymbolChar_of_noMark hmark hblank)
  | text chars =>
      exact ⟨_, .inl rfl, passes_enclose (Literal.body_flatMap_escapeChar chars)⟩

/-- The walk passes the characters inside of `depth` lists, if the value does not nest
too deeply there: an expression, or what stands in a list up to its end. -/
def PassesAs (limit : Nat) (value : Value) (chars : List Char) : (inList : Bool) → Prop
  | false => ∀ depth, depth + value.depth ≤ limit →
      ∃ last : State, last.Rests depth ∧
        Passes limit (chars.map .char) (.inLists .between depth) last
  | true => ∀ (depth : Nat) (state : State), state.Rests (depth + 1) →
      depth + value.depth ≤ limit →
      Passes limit ((chars ++ [')']).map .char) state (.inLists .between depth)

theorem passesAs_spelled {limit : Nat} {value : Value} {inList : Bool} {chars : List Char}
    (hspelled : Spelled value inList chars) : PassesAs limit value chars inList := by
  induction hspelled with
  | atom hatom =>
      intro depth _
      exact passes_atom hatom limit depth
  | @list head tail chars chars' _ _ ihhead ihtail =>
      intro depth hroom
      rw [Value.depth] at hroom
      obtain ⟨last, hrests, hpasses⟩ := ihhead (depth + 1) (by omega)
      have hrest := hpasses.append (ihtail depth last hrests (by omega))
      rw [← List.map_append] at hrest
      exact ⟨_, .inl rfl, .cons (step_open (by omega)) hrest⟩
  | @next head tail chars chars' _ _ ihhead ihtail =>
      intro depth state hstate hroom
      rw [Value.depth] at hroom
      obtain ⟨last, hrests, hpasses⟩ := ihhead (depth + 1) (by omega)
      have hrest := hpasses.append (ihtail depth last hrests (by omega))
      rw [← List.map_append, ← List.append_assoc] at hrest
      exact .cons (step_space hstate) hrest
  | ended =>
      intro depth state hstate _
      exact .cons (step_close hstate) (.nil _)
  | @dotted value chars hatom _ =>
      intro depth state hstate _
      obtain ⟨last, hrests, hpasses⟩ := passes_atom hatom limit (depth + 1)
      have hrest := hpasses.append (.cons (step_close hrests) (.nil _))
      have hdot : step limit (.inLists .between (depth + 1)) (.char '.') =
          .next (.inLists .word (depth + 1)) := rfl
      rw [List.cons_append, List.cons_append, List.cons_append, List.map_cons, List.map_cons,
        List.map_cons, List.map_append]
      exact .cons (step_space hstate) (.cons hdot (.cons (step_space (.inr rfl)) hrest))

/-- The spelling of a value that is within the limit is within it. -/
theorem overflow?_spelled {limit : Int} {value : Value} {chars : List Char}
    (hspelled : Spelled value false chars)
    (hwithin : 0 < limit → (value.depth : Int) ≤ limit) :
    overflow? limit (chars.map .char) = none := by
  rw [overflow?]
  split_ifs with hlimit
  · rfl
  · have hroom := hwithin (by omega)
    have hspelling : PassesAs limit.toNat value chars false := passesAs_spelled hspelled
    obtain ⟨last, _, hpasses⟩ := hspelling 0 (by omega)
    exact hpasses.overflowOver_eq_none 0

end Nesting

/-! ### Both readers -/

namespace Scannerless

theorem check_spelled {limit : Int} {value : Value} {chars : List Char}
    (hspelled : Spelled value false chars)
    (hwithin : 0 < limit → (value.depth : Int) ≤ limit) (file : Bytes) :
    check limit file (encode chars) = .ok () := by
  have hvalid : (chars.map Glyph.char).dropWhile Glyph.isValid = [] := by
    rw [List.dropWhile_eq_nil_iff]
    intro glyph hmem
    obtain ⟨c, _, rfl⟩ := List.mem_map.mp hmem
    rfl
  simp only [check, glyphs_encode, hvalid, Nesting.overflow?_spelled hspelled hwithin]

theorem skipTrivia_spelled {value : Value} {chars : List Char}
    (hspelled : Spelled value false chars) :
    skipTrivia (chars.map .char) = chars.map .char := by
  obtain ⟨c, rest, rfl, hblank, hcomment⟩ := hspelled.first
  have hascii : isAsciiBlank c = false := by
    simp only [isBlank, Bool.or_eq_false_iff] at hblank
    simp [hblank]
  simp [skipTrivia, skipTriviaOver, Glyph.isAsciiBlank, Glyph.isChar, Glyph.satisfies, hascii,
    hcomment]

/-- The scannerless reader reads a spelling as the value that is spelled. -/
theorem readFirst_spelled {limit : Int} {value : Value} {chars : List Char}
    (hspelled : Spelled value false chars)
    (hwithin : 0 < limit → (value.depth : Int) ≤ limit) (file : Bytes) :
    readFirst limit file (encode chars) = .ok value := by
  have hmatch : Grammar.matchOver ((chars.map Glyph.char).length + 1) [] (chars.map .char) =
      some (.ok value, []) := by
    have hwalk := Grammar.matchesAs_spelled hspelled [] [] rfl trivial
    rw [List.append_nil] at hwalk
    exact hwalk
  have hnext : next? ((chars.map Glyph.char).length + 1) (chars.map .char) =
      .ok (some (value, [])) := by
    obtain ⟨c, rest, rfl, _⟩ := hspelled.first
    rw [next?, skipTrivia_spelled hspelled, hmatch]
    rfl
  simp only [readFirst, check_spelled hspelled hwithin, glyphs_encode, hnext]
  rfl

end Scannerless

namespace Reader

/-- Printing is inverted by reading: whatever the token reader reads from a text, both
readers read it back from its external form. -/
theorem read_form (text : Bytes) (value : Value)
    (hread : Reader.tokens.read text = .ok value) :
    Reader.tokens.read value.form = .ok value ∧
      Reader.scannerless.read value.form = .ok value := by
  have hfirst : (TokenReader.ofBytes defaultName text TokenReader.defaultLimit).readFirst.1 =
      .ok value := by
    cases hresult : Reader.tokens.readFirst text with
    | ok result =>
        rw [read, hresult] at hread
        cases hread
        exact hresult
    | error error =>
        rw [read, hresult] at hread
        cases hread
  have hfits := TokenReader.fits_of_readFirst hfirst
  obtain ⟨chars, hspelled⟩ := hfits.readable.spelled false
  have hwithin : 0 < TokenReader.defaultLimit →
      (value.depth : Int) ≤ TokenReader.defaultLimit := by
    simpa using hfits.within
  rw [form_eq_encode hspelled]
  constructor
  · rw [read, readFirst, TokenReader.readFirst_spelled hspelled hwithin]
    rfl
  · rw [read, readFirst, Scannerless.readFirst_spelled hspelled hwithin]
    rfl

/-- A quoted symbol before a text with a line feed in it. -/
theorem read_form_dotted :
    Reader.tokens.read (utf8 "('a . \"-\n\")") =
        .ok (.pair (.quote (.symbol ⟨utf8 "A"⟩)) (.text (utf8 "-\n"))) ∧
      Reader.tokens.read (utf8 "((QUOTE A) . \"-\\n\")") =
        .ok (.pair (.quote (.symbol ⟨utf8 "A"⟩)) (.text (utf8 "-\n"))) ∧
      Reader.scannerless.read (utf8 "((QUOTE A) . \"-\\n\")") =
        .ok (.pair (.quote (.symbol ⟨utf8 "A"⟩)) (.text (utf8 "-\n"))) := by
  have hread : Reader.tokens.read (utf8 "('a . \"-\n\")") =
      .ok (.pair (.quote (.symbol ⟨utf8 "A"⟩)) (.text (utf8 "-\n"))) := by decide +kernel
  have hform : (Value.pair (.quote (.symbol ⟨utf8 "A"⟩)) (.text (utf8 "-\n"))).form =
      utf8 "((QUOTE A) . \"-\\n\")" := by decide +kernel
  refine ⟨hread, ?_⟩
  rw [← hform]
  exact read_form _ _ hread

end Reader

end MiniLisp
