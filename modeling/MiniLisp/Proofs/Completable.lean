import MiniLisp.Proofs.OpenText
import MiniLisp.Proofs.PlainText
import MiniLisp.Reader

/-!
Incomplete texts of the scannerless reader.  When the reader takes a text for the beginning
of an expression, it has completed the text with one of its own making.  Then a later line
completes it too, as long as the reader skips the same white space before an expression as
the grammar does: a form feed is what it skips besides.
-/

namespace MiniLisp

/-! ### Completed texts -/

namespace Completion

/-- The characters that complete a text. -/
def fillers : List Char :=
  ['x', ' ', ')', '"', '\n']

theorem mem_fillers {c : Char} :
    c ∈ fillers ↔ c = 'x' ∨ c = ' ' ∨ c = ')' ∨ c = '"' ∨ c = '\n' := by
  simp [fillers]

/-- What uses up a backslash at the end of a literal. -/
def filler (escaped : Bool) : List Glyph :=
  if escaped then [.char 'x'] else []

theorem mode_endWord (state : State) : state.endWord.mode = state.mode := by
  rw [State.endWord]
  split <;> rfl

theorem mode_delimit_ne (state : State) (glyph : Glyph) (hcode : state.mode = .code) :
    (state.delimit glyph).mode ≠ .string true := by
  have hended : state.endWord.mode = .code := (mode_endWord state).trans hcode
  rw [State.delimit]
  split_ifs <;> simp [hended]

/-- An escape is open behind a backslash. -/
theorem eq_backslash_of_step {state : State} {glyph : Glyph}
    (hmode : (state.step glyph).mode = .string true) : glyph = .char '\\' := by
  rw [State.step] at hmode
  split at hmode
  · next hcomment =>
      split_ifs at hmode
      rw [hcomment] at hmode
      cases hmode
  · cases hmode
  · split_ifs at hmode
    refine Grammar.Rule.eq_of_isChar ?_
    simpa using hmode
  · next hcode =>
      split_ifs at hmode
      · exact absurd hmode (mode_delimit_ne state glyph hcode)
      · rw [State.extendWord] at hmode
        split at hmode <;> rw [hcode] at hmode <;> cases hmode

theorem getLast?_of_escaped {text : List Glyph}
    (hmode : (text.foldl State.step .top).mode = .string true) :
    text.getLast? = some (.char '\\') := by
  rcases List.eq_nil_or_concat text with rfl | ⟨front, glyph, rfl⟩
  · cases hmode
  · rw [List.concat_eq_append, List.foldl_append] at hmode
    rw [List.concat_eq_append, List.getLast?_concat, eq_backslash_of_step hmode]

/-- The line that gives a value to a quote or dot at the end, and closes the lists. -/
def closingLine (state : State) : List Char :=
  (if state.pending then ['x', ' '] else []) ++ List.replicate state.depth.toNat ')'

/-- Outside of a literal, a text is completed on the next line. -/
theorem closing_of_line {state : State} (hmode : ∀ escaped, state.mode ≠ .string escaped) :
    closing state = .char '\n' :: (closingLine state).map .char := by
  have hmap : (List.replicate state.depth.toNat ')').map Glyph.char =
      List.replicate state.depth.toNat (.char ')') := List.map_replicate
  rw [closingLine, List.map_append, hmap]
  cases hcases : state.mode with
  | string escaped => exact absurd hcases (hmode escaped)
  | code =>
      simp only [closing, closeString, closePending, hcases]
      split_ifs <;> rfl
  | comment =>
      simp only [closing, closeString, closePending, hcases]
      split_ifs <;> rfl

/-- A literal is closed at once, and the lists on the next line. -/
theorem closing_of_string {state : State} {escaped : Bool}
    (hmode : state.mode = .string escaped) :
    closing state = filler escaped ++ .char '"' :: .char '\n' ::
      (List.replicate state.depth.toNat ')').map .char := by
  have hmap : (List.replicate state.depth.toNat ')').map Glyph.char =
      List.replicate state.depth.toNat (.char ')') := List.map_replicate
  simp only [closing, closeString, closePending, hmode, hmap]
  cases escaped <;> rfl

theorem closers_fillers (count : Nat) : ∀ c ∈ List.replicate count ')', c ∈ fillers := by
  intro c hmem
  rw [List.eq_of_mem_replicate hmem]
  decide

theorem closingLine_fillers (state : State) : ∀ c ∈ closingLine state, c ∈ fillers := by
  refine List.forall_mem_append.mpr ⟨?_, closers_fillers _⟩
  split_ifs <;> simp [fillers]

end Completion

namespace Grammar

/-- An expression that a line completes is completed by as much of the line as is needed. -/
theorem walk_line_cut {text line rest : List Glyph} {node : Node} (hnone : walk [] text = none)
    (hwalk : walk [] (text ++ .char '\n' :: line) = some (node, rest)) :
    ∃ line', line' <+: line ∧ walk [] (text ++ .char '\n' :: line') = some (node, []) := by
  have hsuffix := walk_suffix hwalk
  by_cases hlength : rest.length ≤ line.length
  · have hline : line <:+ text ++ .char '\n' :: line :=
      (List.suffix_cons _ _).trans (List.suffix_append _ _)
    obtain ⟨line', rfl⟩ := List.suffix_of_suffix_length_le hsuffix hline hlength
    refine ⟨line', List.prefix_append _ _, @walk_cut [] _ [] rest node ?_⟩
    simpa using hwalk
  · have hline : .char '\n' :: line <:+ rest :=
      List.suffix_of_suffix_length_le (List.suffix_append _ _) hsuffix
        (Nat.lt_of_not_le hlength)
    obtain ⟨front, rfl⟩ := hline
    rw [walk_cut hwalk] at hnone
    cases hnone

/-- Parentheses end no literal. -/
theorem stringOver_closers (done : List Glyph) (count : Nat) :
    stringOver done false ((List.replicate count ')').map .char) = none := by
  induction count generalizing done with
  | zero => rfl
  | succ count ih => exact ih _

/-- Every literal of characters has a value. -/
theorem stringNode_eq_ok {text literal rest : List Glyph}
    (hchars : ∀ glyph ∈ text, ∃ c, glyph = .char c)
    (hstring : stringOver [.char '"'] false text = some (literal, rest)) :
    ∃ value, stringNode literal = .ok value := by
  rw [stringOver_eq_literalOver hchars] at hstring
  cases hliteral : Lexer.literalOver [.char '"'] false text with
  | error fault =>
      rw [hliteral] at hstring
      cases hstring
  | ok found =>
      rw [hliteral] at hstring
      cases hstring
      obtain ⟨body, hbody, rfl⟩ := Lexer.body_of_literal hliteral
      obtain ⟨content, hcontent⟩ := Literal.unquote_body hbody
      exact ⟨_, by rw [stringNode, glyphBytes_map_char, hcontent]⟩

theorem part?_quote (behind : List Glyph) :
    part? (.char '"' :: behind) =
      (stringOver [.char '"'] false behind).map fun found =>
        (.atom (stringNode found.1), found.2) := rfl

theorem walk_literal {waiting : List Open} (hafter : afterTail waiting = false)
    {behind literal rest : List Glyph}
    (hstring : stringOver [.char '"'] false behind = some (literal, rest)) :
    walk waiting (.char '"' :: behind) = resume (supply waiting (stringNode literal)) rest := by
  have hpart : nextPart? waiting (.char '"' :: behind) =
      some (.atom (stringNode literal), rest) := by
    rw [nextPart?, hafter, if_neg Bool.false_ne_true]
    change part? (.char '"' :: behind) = _
    rw [part?_quote, hstring]
    rfl
  rw [walk_of_nextPart? hpart, take_atom, Option.bind_some]

/-- A literal that a quote ends is ended by a quote on the next line as well. -/
theorem stringOver_line {done text literal rest tail : List Glyph} {escaped : Bool}
    (hopen : stringOver done false text = none) (htail : ∀ done, stringOver done false tail = none)
    (hstring : stringOver done false
      (text ++ (Completion.filler escaped ++ .char '"' :: .char '\n' :: tail)) =
        some (literal, rest)) :
    rest = .char '\n' :: tail ∧
      ∃ literal', stringOver done false (text ++ .char '\n' :: .char '"' :: tail) =
        some (literal', tail) := by
  obtain ⟨inner, hinner⟩ := stringOver_open hopen
  have hline : ∀ done, stringOver done false (.char '\n' :: tail) = none := fun done => htail _
  rw [hinner] at hstring ⊢
  cases inner <;> cases escaped
  · cases hstring
    exact ⟨rfl, _, rfl⟩
  · cases hstring
    exact ⟨rfl, _, rfl⟩
  · change stringOver _ false (.char '\n' :: tail) = _ at hstring
    rw [hline] at hstring
    cases hstring
  · cases hstring
    exact ⟨rfl, _, rfl⟩

/-- If a text can be completed at once by a quote and parentheses, it can be completed on
the next line: by the parentheses alone if the quote falls into a comment, and else by a
quote and the parentheses. -/
theorem walk_line_of_quote {text tail rest : List Glyph} {escaped : Bool} {value : Value}
    (hchars : ∀ glyph ∈ text, ∃ c, glyph = .char c) (hnone : walk [] text = none)
    (hescaped : escaped = true → text.getLast? = some (.char '\\'))
    (htailChars : ∀ glyph ∈ tail, ∃ c, glyph = .char c)
    (htail : ∀ done, stringOver done false tail = none)
    (hwalk : walk [] (text ++ (Completion.filler escaped ++ .char '"' :: .char '\n' :: tail)) =
      some (.ok value, rest)) :
    ∃ line value' rest', (line = tail ∨ line = .char '"' :: tail) ∧
      walk [] (text ++ .char '\n' :: line) = some (.ok value', rest') := by
  have hfiller : Completion.filler escaped = [] ∨
      Completion.filler escaped = [.char 'x'] ∧ text.getLast? = some (.char '\\') := by
    cases escaped with
    | false => exact .inl rfl
    | true => exact .inr ⟨rfl, hescaped rfl⟩
  have hline : stringOver [.char '"'] false (.char '\n' :: tail) = none := htail _
  obtain ⟨waiting, last, hend, hsuffix, hlater⟩ :=
    openEnd_of_quote hnone hfiller hline (by simp [hwalk])
  have hquoted : ∀ glyph ∈ Glyph.char '\n' :: .char '"' :: tail, ∃ c, glyph = .char c := by
    simpa using htailChars
  have hfilled : ∀ glyph ∈ Completion.filler escaped ++ .char '"' :: .char '\n' :: tail,
      ∃ c, glyph = .char c := by
    cases escaped <;> simpa [Completion.filler] using htailChars
  rw [hlater] at hwalk
  cases hend with
  | comment hcomment =>
      refine ⟨tail, value, rest, .inl rfl, ?_⟩
      rw [hlater, ← hwalk]
      refine walk_congr ?_ waiting
      rw [hcomment, hcomment]
      cases escaped <;> rfl
  | @literal behind hafter hopen =>
      rw [List.cons_append] at hwalk
      cases hstring : stringOver [.char '"'] false
          (behind ++ (Completion.filler escaped ++ .char '"' :: .char '\n' :: tail)) with
      | none =>
          rw [walk_quote hstring] at hwalk
          cases hwalk
      | some found =>
          obtain ⟨literal, after⟩ := found
          obtain ⟨rfl, literal', hstring'⟩ := stringOver_line hopen htail hstring
          have hbehind : ∀ glyph ∈ behind, ∃ c, glyph = .char c :=
            fun glyph hmem => hchars glyph (hsuffix.mem (by simp [hmem]))
          obtain ⟨content, hnode⟩ := stringNode_eq_ok
            (List.forall_mem_append.mpr ⟨hbehind, hfilled⟩) hstring
          obtain ⟨content', hnode'⟩ := stringNode_eq_ok
            (List.forall_mem_append.mpr ⟨hbehind, hquoted⟩) hstring'
          refine ⟨.char '"' :: tail, ?_⟩
          rw [hlater, List.cons_append, walk_literal hafter hstring', hnode']
          rw [walk_literal hafter hstring, hnode] at hwalk
          -- From here on only the content of the literal differs.
          have hsimilar := similar_supply (similar_refl waiting) (.ok content content')
          generalize supply waiting (.ok content) = progress at hsimilar hwalk
          generalize supply waiting (.ok content') = progress' at hsimilar
          cases hsimilar with
          | done hsame =>
              cases hwalk
              cases hsame with
              | ok _ value' => exact ⟨value', _, .inr rfl, rfl⟩
          | @more open' open'' hmore =>
              have hgap : skipGaps (.char '\n' :: tail) = skipGaps tail := rfl
              rw [resume, walk_congr hgap] at hwalk
              obtain ⟨node', hwalk', hsame⟩ := similar_walk hmore hwalk
              cases hsame with
              | ok _ value' => exact ⟨value', rest, .inr rfl, hwalk'⟩

/-- What completes a text at once shows that a later line completes it. -/
theorem walk_line_of_completion {text completed rest : List Glyph} {value : Value}
    (hchars : ∀ glyph ∈ text, ∃ c, glyph = .char c) (hnone : walk [] text = none)
    (hcompletion : completion? text = some completed)
    (hwalk : walk [] completed = some (.ok value, rest)) :
    ∃ (line : List Char) (value' : Value), (∀ c ∈ line, c ∈ Completion.fillers) ∧
      walk [] (text ++ .char '\n' :: line.map .char) = some (.ok value', []) := by
  -- Whatever line completes the text, a beginning of it does so without a rest.
  suffices hline : ∃ (line : List Char) (value' : Value) (rest' : List Glyph),
      (∀ c ∈ line, c ∈ Completion.fillers) ∧
        walk [] (text ++ .char '\n' :: line.map .char) = some (.ok value', rest') by
    obtain ⟨line, value', rest', hfillers, hwalk'⟩ := hline
    obtain ⟨short, hprefix, hshort⟩ := walk_line_cut hnone hwalk'
    obtain ⟨line', hprefix', rfl⟩ := List.prefix_map_iff.mp hprefix
    exact ⟨line', value', fun c hmem => hfillers c (hprefix'.mem hmem), hshort⟩
  rw [completion?] at hcompletion
  split_ifs at hcompletion
  cases hcompletion
  generalize hstate : (text.foldl Completion.State.step .top).endWord = state at hwalk
  by_cases hmode : ∃ escaped, state.mode = .string escaped
  · obtain ⟨escaped, hmode⟩ := hmode
    have hescaped : escaped = true → text.getLast? = some (.char '\\') := by
      rintro rfl
      refine Completion.getLast?_of_escaped ?_
      rw [← Completion.mode_endWord, hstate, hmode]
    have hclosers := Completion.closers_fillers state.depth.toNat
    rw [Completion.closing_of_string hmode] at hwalk
    obtain ⟨line, value', rest', hline, hwalk'⟩ := walk_line_of_quote hchars hnone hescaped
      (by simp) (fun done => stringOver_closers done _) hwalk
    rcases hline with rfl | rfl
    · exact ⟨_, value', rest', hclosers, hwalk'⟩
    · exact ⟨'"' :: _, value', rest', List.forall_mem_cons.mpr ⟨by decide, hclosers⟩, hwalk'⟩
  · rw [Completion.closing_of_line (not_exists.mp hmode)] at hwalk
    exact ⟨_, value, rest, Completion.closingLine_fillers state, hwalk⟩

end Grammar

/-! ### White space before an expression -/

namespace Scannerless

theorem skipTriviaOver_append_ne_nil {inComment : Bool} {text : List Glyph}
    (hskip : skipTriviaOver inComment text ≠ []) (more : List Glyph) :
    skipTriviaOver inComment (text ++ more) ≠ [] := by
  induction text generalizing inComment with
  | nil => cases inComment <;> exact absurd rfl hskip
  | cons glyph text ih =>
      cases inComment with
      | true => exact ih hskip
      | false =>
          rw [skipTriviaOver] at hskip
          rw [List.cons_append, skipTriviaOver]
          split_ifs at hskip ⊢
          · exact ih hskip
          · exact ih hskip
          · exact List.cons_ne_nil _ _

/-- White space in the first 128 characters that is no gap of the grammar. -/
theorem eq_tab_or_feed {c : Char} (hblank : isAsciiBlank c = true)
    (hgap : Grammar.isGap c = false) : c = '\x0b' ∨ c = '\x0c' := by
  have hall : ∀ code < 33, isAsciiBlank (Char.ofNat code) = true →
      Grammar.isGap (Char.ofNat code) = false →
      Char.ofNat code = '\x0b' ∨ Char.ofNat code = '\x0c' := by decide
  have hcode : c.toNat < 33 := by
    simp only [isAsciiBlank, Bool.or_eq_true, Bool.and_eq_true, beq_iff_eq,
      decide_eq_true_eq] at hblank
    rcases hblank with rfl | hrange
    · decide
    · omega
  simpa using hall c.toNat hcode (by simpa using hblank) (by simpa using hgap)

/-- Whether a form feed stands in the white space before an expression; `inComment` says that
a comment has begun. -/
def skipsFeed : (inComment : Bool) → List Glyph → Bool
  | _, [] => false
  | true, glyph :: rest => skipsFeed (!glyph.isChar '\n') rest
  | false, glyph :: rest =>
      if glyph.isChar '\x0c' then true
      else if glyph.isAsciiBlank then skipsFeed false rest
      else if glyph.isChar ';' then skipsFeed true rest
      else false

theorem skipsFeed_of_not_mem {text : List Glyph} (hfeed : Glyph.char '\x0c' ∉ text)
    (inComment : Bool) : skipsFeed inComment text = false := by
  induction text generalizing inComment with
  | nil => cases inComment <;> rfl
  | cons glyph text ih =>
      rw [List.mem_cons, not_or] at hfeed
      have hglyph : glyph.isChar '\x0c' = false := by
        rw [Bool.eq_false_iff]
        exact fun hchar => hfeed.1 (Grammar.Rule.eq_of_isChar hchar).symm
      cases inComment with
      | true => exact ih hfeed.2 _
      | false =>
          rw [skipsFeed, hglyph]
          simp [ih hfeed.2]

/-- Where it skips no form feed, the reader skips before an expression what the grammar does,
or the grammar finds a vertical tab. -/
theorem skipTriviaOver_eq_or {text : List Glyph} {inComment : Bool}
    (hfeed : skipsFeed inComment text = false) :
    skipTriviaOver inComment text = Grammar.skipGapsOver inComment text ∨
      ∃ rest, Grammar.skipGapsOver inComment text = .char '\x0b' :: rest := by
  induction text generalizing inComment with
  | nil => exact .inl (by cases inComment <;> rfl)
  | cons glyph text ih =>
      cases inComment with
      | true => exact ih hfeed
      | false =>
          rw [skipsFeed] at hfeed
          rw [skipTriviaOver, Grammar.skipGapsOver]
          by_cases hgap : glyph.satisfies Grammar.isGap = true
          · have hblank : glyph.isAsciiBlank = true := by
              cases glyph with
              | stray byte => cases hgap
              | char c =>
                  simp only [Glyph.satisfies, Grammar.isGap, Bool.or_eq_true,
                    beq_iff_eq] at hgap
                  rcases hgap with ((rfl | rfl) | rfl) | rfl <;> rfl
            rw [if_pos hblank, if_pos hgap]
            split_ifs at hfeed
            exact ih hfeed
          · rw [if_neg hgap]
            by_cases hblank : glyph.isAsciiBlank = true
            · cases glyph with
              | stray byte => cases hblank
              | char c =>
                  have hother : Grammar.isGap c = false := by
                    simpa [Glyph.satisfies] using hgap
                  rcases eq_tab_or_feed hblank hother with rfl | rfl
                  · exact .inr ⟨text, rfl⟩
                  · cases hfeed
            · rw [if_neg hblank] at hfeed ⊢
              split_ifs at hfeed ⊢
              · exact ih hfeed
              · exact .inl rfl

/-- Where the grammar finds no expression, the reader and the grammar skip the same. -/
theorem skipTrivia_eq_skipGaps {text : List Glyph} (hfeed : skipsFeed false text = false)
    (hnone : Grammar.walk [] text = none) : skipTrivia text = Grammar.skipGaps text := by
  rcases skipTriviaOver_eq_or hfeed with heq | ⟨rest, htab⟩
  · exact heq
  · -- A vertical tab is a symbol.
    have hpart : Grammar.nextPart? [] text =
        some (Grammar.symbolFrom (.char '\x0b') rest) := by
      change Grammar.part? (Grammar.skipGaps text) = _
      rw [Grammar.skipGaps, htab]
      rfl
    rw [Grammar.walk_of_nextPart? hpart] at hnone
    cases hnone

/-! ### Reading on -/

/-- The next expression is what the walk finds. -/
theorem next?_eq {fuel : Nat} {text : List Glyph} (hfuel : text.length < fuel)
    (hskip : skipTrivia text ≠ []) :
    next? fuel text =
      match Grammar.walk [] text with
      | none => .error ⟨diagnose (skipTrivia text), skipTrivia text⟩
      | some (.error fault, _) => .error ⟨fault, skipTrivia text⟩
      | some (.ok value, rest) => .ok (some (value, rest)) := by
  rw [next?]
  split
  · next hnil => exact absurd hnil hskip
  · rw [Grammar.matchOver_fuel hfuel (Nat.lt_succ_self _)]
    rfl

/-- An expression is taken off a text exactly where the walk finds one. -/
theorem next?_eq_some {fuel : Nat} {text rest : List Glyph} {value : Value}
    (hfuel : text.length < fuel) :
    next? fuel text = .ok (some (value, rest)) ↔
      skipTrivia text ≠ [] ∧ Grammar.walk [] text = some (.ok value, rest) := by
  by_cases hskip : skipTrivia text = []
  · simp [next?, hskip]
  · rw [next?_eq hfuel hskip]
    constructor
    · intro hnext
      split at hnext
      · cases hnext
      · cases hnext
      · next hwalk =>
          cases hnext
          exact ⟨hskip, hwalk⟩
    · rintro ⟨_, hwalk⟩
      rw [hwalk]

theorem next?_nil (fuel : Nat) : next? fuel [] = .ok none := rfl

/-- Behind the expressions of a text, one after the other, there is a place where none
starts. -/
inductive StopsAt : (text stop : List Glyph) → Prop
  | here {text : List Glyph} (hnone : Grammar.walk [] text = none) : StopsAt text text
  | behind {text rest stop : List Glyph} {value : Value}
      (hwalk : Grammar.walk [] text = some (.ok value, rest)) (hstops : StopsAt rest stop) :
      StopsAt text stop

theorem StopsAt.suffix {text stop : List Glyph} (hstops : StopsAt text stop) : stop <:+ text := by
  induction hstops with
  | here => exact List.suffix_refl _
  | behind hwalk _ ih => exact ih.trans (Grammar.walk_suffix hwalk)

/-- Reading a text stops at one place at most. -/
theorem StopsAt.unique {text stop stop' : List Glyph} (hstops : StopsAt text stop)
    (hstops' : StopsAt text stop') : stop = stop' := by
  induction hstops with
  | here hnone =>
      cases hstops' with
      | here => rfl
      | behind hwalk =>
          rw [hnone] at hwalk
          cases hwalk
  | behind hwalk _ ih =>
      cases hstops' with
      | here hnone =>
          rw [hnone] at hwalk
          cases hwalk
      | behind hwalk' hstops' =>
          rw [hwalk'] at hwalk
          cases hwalk
          exact ih hstops'

/-- With more behind it, a text that cannot be read is read up to the same place. -/
theorem readAllOver_stops {fuel count : Nat} {found : List Value} {text : List Glyph}
    {fault : FaultAt} (hfuel : text.length < fuel)
    (hread : readAllOver fuel count found text = .error fault) :
    ∃ rest found', next? fuel rest = .error fault ∧ rest <:+ text ∧
      (Grammar.walk [] rest = none → StopsAt text rest) ∧
      ∀ more fuel' count', (text ++ more).length < fuel' → (text ++ more).length < count' →
        ∃ count'', readAllOver fuel' count' found (text ++ more) =
          readAllOver fuel' (count'' + 1) found' (rest ++ more) := by
  induction count generalizing found text with
  | zero => cases hread
  | succ count ih =>
      rw [readAllOver] at hread
      split at hread
      · next fault' hnext =>
          cases hread
          refine ⟨text, found, hnext, List.suffix_refl _, .here,
            fun more fuel' count' _ hcount => ?_⟩
          exact ⟨count' - 1, by rw [Nat.sub_add_cancel (by omega)]⟩
      · cases hread
      · next value rest hnext =>
          obtain ⟨hskip, hwalk⟩ := (next?_eq_some hfuel).mp hnext
          have hrest : rest ≠ [] := by
            rintro rfl
            cases count with
            | zero => cases hread
            | succ count => simp [readAllOver, next?_nil] at hread
          have hshorter := Grammar.length_walk hwalk
          obtain ⟨stop, found', hstop, hsuffix, hstops, hlater⟩ := ih (by omega) hread
          refine ⟨stop, found', hstop, hsuffix.trans (Grammar.walk_suffix hwalk),
            fun hnone => .behind hwalk (hstops hnone), ?_⟩
          intro more fuel' count' hfuel' hcount'
          obtain ⟨count', rfl⟩ : ∃ less, count' = less + 1 := ⟨count' - 1, by omega⟩
          have hnext' : next? fuel' (text ++ more) = .ok (some (value, rest ++ more)) :=
            (next?_eq_some hfuel').mpr ⟨skipTriviaOver_append_ne_nil hskip more,
              Grammar.walk_append hwalk fun hnil => absurd hnil hrest⟩
          simp only [List.length_append] at hfuel' hcount' hlater
          rw [readAllOver, hnext']
          exact hlater more fuel' count' (by omega) (by omega)

/-- A text is incomplete where no expression is found and the completed text is one. -/
theorem of_diagnose {text : List Glyph} (hincomplete : (diagnose text).isIncomplete = true) :
    ∃ completed value rest, completion? text = some completed ∧
      Grammar.walk [] completed = some (.ok value, rest) := by
  rw [diagnose] at hincomplete
  split_ifs at hincomplete
  · cases hincomplete
  · cases hcompletion : completion? text with
    | none =>
        rw [hcompletion] at hincomplete
        cases hincomplete
    | some completed =>
        rw [hcompletion, Option.bind_some] at hincomplete
        change (match Grammar.walk [] completed with
          | none => ReadFault.noExpression
          | some (.error fault, _) => fault
          | some (.ok _, _) => .incompleteExpression).isIncomplete = true at hincomplete
        split at hincomplete
        · cases hincomplete
        · next fault rest hwalk =>
            have hdefinite := Grammar.definite_walk (by simp) hwalk fault rfl
            rw [hdefinite] at hincomplete
            cases hincomplete
        · next value rest hwalk => exact ⟨completed, value, rest, rfl, hwalk⟩

theorem of_next? {fuel : Nat} {text : List Glyph} {fault : FaultAt} (hfuel : text.length < fuel)
    (hnext : next? fuel text = .error fault) (hincomplete : fault.fault.isIncomplete = true) :
    skipTrivia text ≠ [] ∧ Grammar.walk [] text = none ∧
      ∃ completed value rest, completion? (skipTrivia text) = some completed ∧
        Grammar.walk [] completed = some (.ok value, rest) := by
  have hskip : skipTrivia text ≠ [] := by
    intro hnil
    simp [next?, hnil] at hnext
  rw [next?_eq hfuel hskip] at hnext
  split at hnext
  · next hwalk =>
      cases hnext
      exact ⟨hskip, hwalk, of_diagnose hincomplete⟩
  · next fault' rest hwalk =>
      cases hnext
      have hdefinite := Grammar.definite_walk (by simp) hwalk fault' rfl
      rw [hdefinite] at hincomplete
      cases hincomplete
  · cases hnext

/-- A line completes a text that is incomplete for the reader. -/
theorem readAllOver_line {fuel count : Nat} {found : List Value} {text : List Glyph}
    {fault : FaultAt} (hfuel : text.length < fuel)
    (hchars : ∀ glyph ∈ text, ∃ c, glyph = .char c)
    (hfeed : ∀ stop, StopsAt text stop → skipsFeed false stop = false)
    (hread : readAllOver fuel count found text = .error fault)
    (hincomplete : fault.fault.isIncomplete = true) :
    ∃ line : List Char, (∀ c ∈ line, c ∈ Completion.fillers) ∧
      ∀ fuel' count', (text ++ Glyph.char '\n' :: line.map Glyph.char).length < fuel' →
        (text ++ Glyph.char '\n' :: line.map Glyph.char).length < count' →
        ∃ values, readAllOver fuel' count' found (text ++ .char '\n' :: line.map .char) =
          .ok values := by
  obtain ⟨stop, found', hnext, hsuffix, hstops, hlater⟩ := readAllOver_stops hfuel hread
  have hlength := hsuffix.length_le
  obtain ⟨htrivia, hnone, completed, value, rest, hcompletion, hwalk⟩ :=
    of_next? (by omega) hnext hincomplete
  have hgaps := skipTrivia_eq_skipGaps (hfeed stop (hstops hnone)) hnone
  have hskip : Grammar.skipGaps stop ≠ [] := hgaps ▸ htrivia
  rw [hgaps] at hcompletion
  have hstart : ∀ glyph ∈ Grammar.skipGaps stop, ∃ c, glyph = .char c :=
    fun glyph hmem => hchars glyph (hsuffix.mem ((Grammar.skipGaps_suffix stop).mem hmem))
  obtain ⟨line, value', hfillers, hline⟩ := Grammar.walk_line_of_completion hstart
    ((Grammar.walk_skipGaps [] stop).trans hnone) hcompletion hwalk
  rw [Grammar.walk_skipGaps_append [] hskip] at hline
  refine ⟨line, hfillers, fun fuel' count' hfuel' hcount' => ?_⟩
  obtain ⟨count'', hsame⟩ := hlater _ fuel' count' hfuel' hcount'
  have hskip' : skipTrivia (stop ++ .char '\n' :: line.map .char) ≠ [] :=
    skipTriviaOver_append_ne_nil htrivia _
  have hshort : (stop ++ Glyph.char '\n' :: line.map Glyph.char).length < fuel' := by
    simp only [List.length_append] at hfuel' ⊢
    omega
  rw [hsame, readAllOver, next?_eq hshort hskip', hline]
  cases count'' <;> exact ⟨_, rfl⟩

/-! ### Texts and lines -/

theorem check_eq_ok_iff {limit : Int} {file text : Bytes} :
    check limit file text = .ok () ↔
      (∀ glyph ∈ glyphs text, ∃ c, glyph = .char c) ∧
        Nesting.overflow? limit (glyphs text) = none := by
  have hvalid : (∀ glyph ∈ glyphs text, ∃ c, glyph = .char c) ↔
      (glyphs text).dropWhile Glyph.isValid = [] := by
    rw [List.dropWhile_eq_nil_iff]
    refine forall₂_congr fun glyph _ => ?_
    cases glyph <;> simp [Glyph.isValid, Glyph.satisfies]
  rw [hvalid, check]
  split
  · next hstray => simp [hstray]
  · next hstray =>
      have hnil : (glyphs text).dropWhile Glyph.isValid = [] := by
        cases hdrop : (glyphs text).dropWhile Glyph.isValid with
        | nil => rfl
        | cons glyph rest =>
            have hnot := List.head?_dropWhile_not Glyph.isValid (glyphs text)
            cases glyph with
            | char c => simp [hdrop, Glyph.isValid, Glyph.satisfies] at hnot
            | stray byte => exact absurd hdrop (hstray byte rest)
      rw [hnil]
      cases Nesting.overflow? limit (glyphs text) <;> simp

end Scannerless

namespace Nesting

theorem between_ne_overflow {limit : Nat} {state : State} {glyph : Glyph}
    (hopen : glyph.isChar '(' = false) (hquote : glyph.isChar '\'' = false) :
    between limit state glyph ≠ .overflow := by
  rw [between]
  simp only [hopen, hquote, Bool.false_eq_true, if_false]
  split_ifs
  · simp
  · simp
  · simp
  · split <;> simp
  · simp

theorem step_ne_overflow {limit : Nat} {state : State} {glyph : Glyph}
    (hopen : glyph.isChar '(' = false) (hquote : glyph.isChar '\'' = false) :
    step limit state glyph ≠ .overflow := by
  rw [step]
  split
  · exact between_ne_overflow hopen hquote
  · split_ifs
    · exact between_ne_overflow hopen hquote
    · simp
  · simp
  · simp
  · split_ifs <;> simp

/-- What opens nothing nests no deeper. -/
theorem overflowOver_append {limit : Nat} {text more : List Glyph} {state : State}
    {offset : Nat} (hnone : overflowOver limit text offset state = none)
    (hmore : ∀ glyph ∈ more, glyph.isChar '(' = false ∧ glyph.isChar '\'' = false) :
    overflowOver limit (text ++ more) offset state = none := by
  induction text generalizing state offset with
  | nil =>
      clear hnone
      induction more generalizing state offset with
      | nil => rfl
      | cons glyph more ih =>
          rw [List.forall_mem_cons] at hmore
          rw [List.nil_append, overflowOver]
          cases hstep : step limit state glyph with
          | next after => exact ih hmore.2
          | overflow => exact absurd hstep (step_ne_overflow hmore.1.1 hmore.1.2)
          | unmatched => rfl
  | cons glyph text ih =>
      rw [overflowOver] at hnone
      rw [List.cons_append, overflowOver]
      split at hnone
      · next hstep => exact ih hnone
      · cases hnone
      · rfl

theorem overflow?_append {limit : Int} {text more : List Glyph}
    (hnone : overflow? limit text = none)
    (hmore : ∀ glyph ∈ more, glyph.isChar '(' = false ∧ glyph.isChar '\'' = false) :
    overflow? limit (text ++ more) = none := by
  rw [overflow?] at hnone ⊢
  split_ifs at hnone ⊢
  · rfl
  · exact overflowOver_append hnone hmore

end Nesting

namespace Scannerless

/-- No line removes a fault in the encoding or the nesting. -/
theorem definite_check {limit : Int} {file text : Bytes} {error : ReadError}
    (hcheck : check limit file text = .error error) : error.fault.isIncomplete = false := by
  rw [check] at hcheck
  split at hcheck
  · cases hcheck
    rfl
  · split at hcheck <;> cases hcheck
    rfl

theorem readAll_eq {limit : Int} {file text : Bytes} (hcheck : check limit file text = .ok ()) :
    readAll limit file text =
      (readAllOver ((glyphs text).length + 1) ((glyphs text).length + 1) [] (glyphs text)).mapError
        (FaultAt.error file text) := by
  rw [readAll, hcheck]
  rfl

theorem readFirst_eq {limit : Int} {file text : Bytes} (hcheck : check limit file text = .ok ()) :
    readFirst limit file text =
      match next? ((glyphs text).length + 1) (glyphs text) with
      | .error fault => .error (fault.error file text)
      | .ok none => .ok .empty
      | .ok (some (value, _)) => .ok value := by
  rw [readFirst, hcheck]
  rfl

theorem fillers_open_nothing {c : Char} (hfiller : c ∈ Completion.fillers) :
    Glyph.isChar '(' (.char c) = false ∧ Glyph.isChar '\'' (.char c) = false := by
  rcases Completion.mem_fillers.mp hfiller with rfl | rfl | rfl | rfl | rfl <;> decide

theorem check_line {limit : Int} {file text : Bytes} {line : List Char}
    (hcheck : check limit file text = .ok ()) (hline : ∀ c ∈ line, c ∈ Completion.fillers) :
    check limit file (text ++ 10 :: encode line) = .ok () := by
  rw [check_eq_ok_iff] at hcheck ⊢
  rw [glyphs_append_line, glyphs_encode]
  refine ⟨List.forall_mem_append.mpr ⟨hcheck.1, ?_⟩, Nesting.overflow?_append hcheck.2 ?_⟩
  · intro glyph hmem
    rw [← List.map_cons, List.mem_map] at hmem
    obtain ⟨c, _, rfl⟩ := hmem
    exact ⟨c, rfl⟩
  · intro glyph hmem
    rw [← List.map_cons, List.mem_map] at hmem
    obtain ⟨c, hmem, rfl⟩ := hmem
    rcases List.mem_cons.mp hmem with rfl | hmem
    · decide
    · exact fillers_open_nothing (hline c hmem)

/-- A text that is incomplete for the reader is completed by a line, unless a form feed stands
before the expression that is left open. -/
theorem readAll_line {limit : Int} {file text : Bytes} {error : ReadError}
    (hfeed : ∀ stop, StopsAt (glyphs text) stop → skipsFeed false stop = false)
    (hread : readAll limit file text = .error error)
    (hincomplete : error.fault.isIncomplete = true) :
    ∃ line : List Char, (∀ c ∈ line, c ∈ Completion.fillers) ∧
      ∃ values, readAll limit file (text ++ 10 :: encode line) = .ok values := by
  cases hcheck : check limit file text with
  | error error' =>
      rw [readAll, hcheck] at hread
      cases hread
      rw [definite_check hcheck] at hincomplete
      cases hincomplete
  | ok =>
      rw [readAll_eq hcheck] at hread
      cases hover : readAllOver ((glyphs text).length + 1) ((glyphs text).length + 1) []
          (glyphs text) with
      | ok values =>
          rw [hover] at hread
          cases hread
      | error fault =>
          rw [hover] at hread
          cases hread
          obtain ⟨line, hfillers, hlater⟩ := readAllOver_line (Nat.lt_succ_self _)
            (check_eq_ok_iff.mp hcheck).1 hfeed hover hincomplete
          refine ⟨line, hfillers, ?_⟩
          obtain ⟨values, hvalues⟩ := hlater _ _ (Nat.lt_succ_self _) (Nat.lt_succ_self _)
          refine ⟨values, ?_⟩
          rw [readAll_eq (check_line hcheck hfillers), glyphs_append_line, glyphs_encode, hvalues]
          rfl

/-- Where something follows a form feed that stands before an expression, nothing is read. -/
theorem readAll_feed {limit : Int} {file text : Bytes} (hskip : skipTrivia (glyphs text) ≠ [])
    (values : List Value) : readAll limit file (12 :: text) ≠ .ok values := by
  intro hread
  have hglyphs : glyphs (12 :: text) = .char '\x0c' :: glyphs text := by
    rw [glyphs_cons]
    rfl
  have hnone : Grammar.walk [] (.char '\x0c' :: glyphs text) = none := by
    rw [Grammar.walk_eq]
    rfl
  have hskip' : skipTrivia (.char '\x0c' :: glyphs text) ≠ [] := hskip
  cases hcheck : check limit file (12 :: text) with
  | error error =>
      rw [readAll, hcheck] at hread
      cases hread
  | ok =>
      rw [readAll_eq hcheck, hglyphs, readAllOver, next?_eq (Nat.lt_succ_self _) hskip',
        hnone] at hread
      cases hread

end Scannerless

namespace Reader

theorem readProgram_scannerless (file text : Bytes) :
    Reader.scannerless.readProgram file (.ofBytes text) =
      (Scannerless.readAll TokenReader.defaultLimit file text).mapError .ofReadError := rfl

/-- A text that is incomplete for the scannerless reader can be completed by a later line, so
that a session never waits in vain, unless a form feed stands before the expression that is
left open. -/
theorem scannerless_incomplete_completable (file text : Bytes)
    (hfeed : ∀ stop, Scannerless.StopsAt (glyphs text) stop →
      Scannerless.skipsFeed false stop = false) {failure : Failure}
    (hread : Reader.scannerless.readProgram file (.ofBytes text) = .error failure)
    (hincomplete : failure.isIncomplete = true) :
    ∃ later values, Reader.scannerless.readProgram file
      (.ofBytes (text ++ utf8 "\n" ++ later)) = .ok values := by
  rw [readProgram_scannerless] at hread
  cases hall : Scannerless.readAll TokenReader.defaultLimit file text with
  | ok values =>
      rw [hall] at hread
      cases hread
  | error error =>
      rw [hall] at hread
      cases hread
      obtain ⟨line, _, values, hvalues⟩ := Scannerless.readAll_line hfeed hall hincomplete
      refine ⟨encode line, values, ?_⟩
      have hline : text ++ utf8 "\n" ++ encode line = text ++ 10 :: encode line := by
        rw [List.append_assoc]
        rfl
      rw [hline, readProgram_scannerless, hvalues]
      rfl

/-- Behind a symbol, a list, a quote and a literal are left open.  The last backslash escapes
the end of the line, and a form feed stands in the literal. -/
theorem scannerless_incomplete_completable_literal :
    ∃ later values, Reader.scannerless.readProgram defaultName
      (.ofBytes (utf8 "c ('a \"\x0c\\" ++ utf8 "\n" ++ later)) = .ok values := by
  refine scannerless_incomplete_completable defaultName _ ?_ rfl (by decide +kernel)
  have hfirst : Grammar.walk [] (glyphs (utf8 "c ('a \"\x0c\\")) =
      some (.ok (.symbol ⟨utf8 "C"⟩), glyphs (utf8 " ('a \"\x0c\\")) := by decide +kernel
  have hsecond : Grammar.walk [] (glyphs (utf8 " ('a \"\x0c\\")) = none := by decide +kernel
  intro stop hstops
  rw [hstops.unique (.behind hfirst (.here hsecond))]
  decide +kernel

/-- The reader skips a form feed before an expression, but the grammar does not.  So it takes
a list behind a form feed for incomplete, and no later line completes it. -/
theorem formFeed_waits_in_vain :
    (∃ failure, Reader.scannerless.readProgram defaultName (.ofBytes (utf8 "\x0c()")) =
        .error failure ∧ failure.isIncomplete = true) ∧
      ∀ later values, Reader.scannerless.readProgram defaultName
        (.ofBytes (utf8 "\x0c()" ++ utf8 "\n" ++ later)) ≠ .ok values := by
  refine ⟨⟨_, rfl, by decide +kernel⟩, fun later values hread => ?_⟩
  have hskip : Scannerless.skipTrivia (glyphs (utf8 "()" ++ 10 :: later)) ≠ [] := by
    rw [glyphs_append_line]
    exact List.cons_ne_nil _ _
  rw [readProgram_scannerless] at hread
  cases hall : Scannerless.readAll TokenReader.defaultLimit defaultName
      (utf8 "\x0c()" ++ utf8 "\n" ++ later) with
  | ok values' => exact Scannerless.readAll_feed hskip values' hall
  | error error =>
      rw [hall] at hread
      cases hread

end Reader

end MiniLisp
