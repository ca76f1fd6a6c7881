import MiniLisp.Proofs.CaselessTokens
import MiniLisp.Proofs.LocatedFaults

/-!
Reading does not tell the cases of letters apart.  Outside of string literals, a text in
upper case is read as the text is: with the same values, or with the same fault at the same
place.  Every step of a reader either asks which class a character belongs to, and the
classes hold no letter or every letter; or it names a symbol, and names have no case.
-/

namespace MiniLisp

/-! ### Classes of glyphs -/

theorem takeWhile_map_upper {p : Glyph → Bool} (hp : ∀ glyph : Glyph, p glyph.upper = p glyph)
    (text : List Glyph) :
    (text.map Glyph.upper).takeWhile p = (text.takeWhile p).map Glyph.upper := by
  rw [List.takeWhile_map, Function.comp_def]
  simp only [hp]

theorem dropWhile_map_upper {p : Glyph → Bool} (hp : ∀ glyph : Glyph, p glyph.upper = p glyph)
    (text : List Glyph) :
    (text.map Glyph.upper).dropWhile p = (text.dropWhile p).map Glyph.upper := by
  rw [List.dropWhile_map, Function.comp_def]
  simp only [hp]

theorem head?_any_map_upper {p : Glyph → Bool} (hp : ∀ glyph : Glyph, p glyph.upper = p glyph)
    (text : List Glyph) : (text.map Glyph.upper).head?.any p = text.head?.any p := by
  cases text with
  | nil => rfl
  | cons glyph rest => exact hp glyph

theorem Glyph.isAsciiBlank_upper (glyph : Glyph) : glyph.upper.isAsciiBlank = glyph.isAsciiBlank :=
  satisfies_upper (caseless_of_letters (by decide)) glyph

theorem Glyph.endsWord_upper (glyph : Glyph) : glyph.upper.endsWord = glyph.endsWord := by
  rw [endsWord, endsWord, isAsciiBlank_upper,
    satisfies_upper (caseless_of_letters (by decide)) glyph]

/-- What is found at the beginning of a text, when what follows is in upper case. -/
def upperRest {α : Type} (found : α × List Glyph) : α × List Glyph :=
  (found.1, found.2.map Glyph.upper)

/-! ### The grammar -/

namespace Grammar

theorem caseless_isGap : Caseless isGap :=
  caseless_of_letters (by decide)

theorem isDigit_upper (glyph : Glyph) : isDigit glyph.upper = isDigit glyph :=
  Glyph.satisfies_upper Lexer.caseless_isDigit glyph

theorem isSymbolGlyph_upper (glyph : Glyph) : isSymbolGlyph glyph.upper = isSymbolGlyph glyph := by
  rw [isSymbolGlyph, isSymbolGlyph, Glyph.satisfies_upper (caseless_of_letters (by decide)) glyph]

theorem skipGapsOver_upper (inComment : Bool) (text : List Glyph) :
    skipGapsOver inComment (text.map Glyph.upper) =
      (skipGapsOver inComment text).map Glyph.upper := by
  induction text generalizing inComment with
  | nil => cases inComment <;> rfl
  | cons glyph rest ih =>
      cases inComment with
      | true =>
          rw [List.map_cons, skipGapsOver, skipGapsOver, Glyph.isChar_upper rfl]
          exact ih _
      | false =>
          rw [List.map_cons, skipGapsOver, skipGapsOver, Glyph.satisfies_upper caseless_isGap,
            Glyph.isChar_upper rfl]
          split_ifs
          · exact ih _
          · exact ih _
          · rfl

theorem skipGaps_upper (text : List Glyph) :
    skipGaps (text.map Glyph.upper) = (skipGaps text).map Glyph.upper :=
  skipGapsOver_upper false text

theorem upper_of_isDigit {glyph : Glyph} (hdigit : isDigit glyph = true) :
    glyph.upper = glyph := by
  cases glyph with
  | char c => exact congrArg Glyph.char (Lexer.toUpper_of_isDigit hdigit)
  | stray byte => rfl

theorem intFrom_upper {first : Glyph} (hfirst : first.upper = first) (rest : List Glyph) :
    intFrom first.upper (rest.map Glyph.upper) = upperRest (intFrom first rest) := by
  have hdigits : (rest.takeWhile isDigit).map Glyph.upper = rest.takeWhile isDigit := by
    have hfixed : ∀ glyph ∈ rest.takeWhile isDigit, glyph.upper = glyph :=
      fun glyph hmem => upper_of_isDigit (List.mem_takeWhile_imp hmem)
    rw [List.map_congr_left hfixed, List.map_id']
  rw [intFrom, takeWhile_map_upper isDigit_upper, dropWhile_map_upper isDigit_upper, hfirst,
    hdigits]
  rfl

theorem symbolFrom_upper (first : Glyph) (rest : List Glyph) :
    symbolFrom first.upper (rest.map Glyph.upper) = upperRest (symbolFrom first rest) := by
  rw [symbolFrom, takeWhile_map_upper isSymbolGlyph_upper, dropWhile_map_upper isSymbolGlyph_upper,
    ← List.map_cons, symbolNode, intern_map_upper]
  rfl

theorem part?_upper {text : List Glyph} (hunquoted : Unquoted text) :
    part? (text.map Glyph.upper) = (part? text).map upperRest := by
  cases text with
  | nil => rfl
  | cons first rest =>
      have hquote := hunquoted first (.head _)
      have hfixed : (isDigit first || first.isChar '-' && rest.head?.any isDigit) = true →
          first.upper = first := by
        intro hnumber
        rw [Bool.or_eq_true, Bool.and_eq_true] at hnumber
        rcases hnumber with hdigit | ⟨hsign, -⟩
        · exact upper_of_isDigit hdigit
        · rw [Rule.eq_of_isChar hsign]
          rfl
      rw [List.map_cons, part?, part?, isDigit_upper, isSymbolGlyph_upper, symbolFrom_upper,
        head?_any_map_upper isDigit_upper, head?_any_map_upper isSymbolGlyph_upper]
      -- One rewrite for each of the six marks that may start a part.
      rw [Glyph.isChar_upper rfl, Glyph.isChar_upper rfl, Glyph.isChar_upper rfl,
        Glyph.isChar_upper rfl, Glyph.isChar_upper rfl, Glyph.isChar_upper rfl]
      simp only [hquote, Bool.false_eq_true, ↓reduceIte]
      split_ifs with hopen hclose hmark hnumber
      · rfl
      · rfl
      · rfl
      · rw [intFrom_upper (hfixed hnumber)]
        rfl
      all_goals rfl

theorem partAfterTail?_upper (text : List Glyph) :
    partAfterTail? (text.map Glyph.upper) = (partAfterTail? text).map upperRest := by
  cases text with
  | nil => rfl
  | cons first rest =>
      rw [List.map_cons, partAfterTail?, partAfterTail?, Glyph.isChar_upper rfl,
        Glyph.isChar_upper rfl]
      split_ifs <;> rfl

theorem nextPart?_upper {text : List Glyph} (hunquoted : Unquoted text) (waiting : List Open) :
    nextPart? waiting (text.map Glyph.upper) = (nextPart? waiting text).map upperRest := by
  rw [nextPart?, nextPart?, skipGaps_upper, partAfterTail?_upper,
    part?_upper (hunquoted.of_suffix (skipGaps_suffix text))]
  split_ifs <;> rfl

/-- An expression without literals matches in upper case, with the same value or fault. -/
theorem matchOver_upper (fuel : Nat) (waiting : List Open) {text : List Glyph}
    (hunquoted : Unquoted text) :
    matchOver fuel waiting (text.map Glyph.upper) =
      (matchOver fuel waiting text).map upperRest := by
  induction fuel generalizing waiting text with
  | zero => rfl
  | succ fuel ih =>
      rw [matchOver_succ, matchOver_succ, nextPart?_upper hunquoted]
      cases hpart : nextPart? waiting text with
      | none => rfl
      | some found =>
          obtain ⟨part, rest⟩ := found
          have hrest := hunquoted.of_suffix (nextPart?_suffix hpart)
          simp only [Option.map_some, upperRest]
          cases take waiting part with
          | none => rfl
          | some progress =>
              cases progress with
              | done node => rfl
              | more waiting => exact ih waiting hrest

theorem match?_upper {text : List Glyph} (hunquoted : Unquoted text) :
    match? (text.map Glyph.upper) = (match? text).map upperRest := by
  rw [match?, match?, List.length_map, matchOver_upper _ _ hunquoted]

/-- The first expressions of two texts that are the same in upper case have the same value
or fault. -/
theorem match?_congr {text text' : List Glyph} (hunquoted : Unquoted text)
    (hunquoted' : Unquoted text') (heq : text.map Glyph.upper = text'.map Glyph.upper) :
    (match? text).map Prod.fst = (match? text').map Prod.fst := by
  have hnode : ∀ {text : List Glyph}, Unquoted text →
      (match? text).map Prod.fst = (match? (text.map Glyph.upper)).map Prod.fst := by
    intro text hunquoted
    rw [match?_upper hunquoted, Option.map_map]
    rfl
  rw [hnode hunquoted, hnode hunquoted', heq]

end Grammar

/-! ### Completed texts -/

namespace Completion

theorem extendWord_upper (state : State) (glyph : Glyph) :
    state.extendWord glyph.upper = state.extendWord glyph := by
  rw [State.extendWord, State.extendWord, Glyph.isChar_upper rfl]

theorem delimit_upper (state : State) (glyph : Glyph) :
    state.delimit glyph.upper = state.delimit glyph := by
  rw [State.delimit, State.delimit, Glyph.isChar_upper rfl, Glyph.isChar_upper rfl,
    Glyph.isChar_upper rfl, Glyph.isChar_upper rfl]

theorem step_upper (state : State) (glyph : Glyph) : state.step glyph.upper = state.step glyph := by
  rw [State.step, State.step, delimit_upper, extendWord_upper, Glyph.endsWord_upper,
    Glyph.isChar_upper rfl, Glyph.isChar_upper rfl, Glyph.isChar_upper rfl,
    Glyph.isChar_upper rfl]

theorem foldl_step_upper (state : State) (text : List Glyph) :
    (text.map Glyph.upper).foldl State.step state = text.foldl State.step state := by
  rw [List.foldl_map]
  simp only [step_upper]

theorem step_unquoted {state : State} (hmode : ∀ escaped, state.mode ≠ .string escaped)
    {glyph : Glyph} (hquote : glyph.isChar '"' = false) (escaped : Bool) :
    (state.step glyph).mode ≠ .string escaped := by
  have hended : state.endWord.mode ≠ .string escaped := by
    rw [mode_endWord]
    exact hmode escaped
  rw [State.step]
  split
  · split_ifs
    · simp
    · exact hmode escaped
  · next hstring => exact absurd hstring (hmode true)
  · next hstring => exact absurd hstring (hmode false)
  · split_ifs
    · simp
    · simp only [State.delimit, hquote, Bool.false_eq_true, ↓reduceIte]
      split_ifs <;> exact hended
    · rw [State.extendWord]
      split <;> exact hmode escaped

/-- A text without literals leaves none open. -/
theorem foldl_step_unquoted {text : List Glyph} (hunquoted : Unquoted text) {state : State}
    (hmode : ∀ escaped, state.mode ≠ .string escaped) (escaped : Bool) :
    (text.foldl State.step state).mode ≠ .string escaped := by
  induction text generalizing state with
  | nil => exact hmode escaped
  | cons glyph text ih =>
      exact ih (fun glyph hmem => hunquoted glyph (.tail _ hmem))
        (step_unquoted hmode (hunquoted glyph (.head _)))

theorem unquoted_closing {state : State} (hmode : ∀ escaped, state.mode ≠ .string escaped) :
    Unquoted (closing state) := by
  have hline : ∀ c ∈ closingLine state, c = 'x' ∨ c = ' ' ∨ c = ')' := by
    intro c hmem
    rw [closingLine, List.mem_append, List.mem_replicate] at hmem
    rcases hmem with hmem | ⟨-, rfl⟩
    · split_ifs at hmem
      · simpa [or_assoc] using Or.inl hmem
      · cases hmem
    · exact .inr (.inr rfl)
  rw [closing_of_line hmode]
  intro glyph hmem
  rw [List.mem_cons, List.mem_map] at hmem
  rcases hmem with rfl | ⟨c, hc, rfl⟩
  · rfl
  · rcases hline c hc with rfl | rfl | rfl <;> rfl

end Completion

/-- A text and the text in upper case are completed in the same way. -/
theorem completion?_upper (text : List Glyph) :
    (completion? (text.map Glyph.upper)).map (List.map Glyph.upper) =
      (completion? text).map (List.map Glyph.upper) := by
  rw [completion?, completion?, Completion.foldl_step_upper]
  split_ifs
  · rfl
  · rw [Option.map_some, Option.map_some, List.map_append, List.map_append, List.map_map]
    simp only [Function.comp_def, Glyph.upper_upper]

theorem Unquoted.of_completion? {text full : List Glyph} (hunquoted : Unquoted text)
    (hfull : completion? text = some full) : Unquoted full := by
  rw [completion?] at hfull
  split_ifs at hfull
  cases hfull
  intro glyph hmem
  rw [List.mem_append] at hmem
  rcases hmem with hmem | hmem
  · exact hunquoted glyph hmem
  · refine Completion.unquoted_closing ?_ glyph hmem
    intro escaped
    rw [Completion.mode_endWord]
    exact Completion.foldl_step_unquoted hunquoted (by simp [Completion.State.top]) escaped

theorem Unquoted.map_upper {text : List Glyph} (hunquoted : Unquoted text) :
    Unquoted (text.map Glyph.upper) := by
  intro glyph hmem
  rw [List.mem_map] at hmem
  obtain ⟨glyph, hmem, rfl⟩ := hmem
  rw [Glyph.isChar_upper rfl]
  exact hunquoted glyph hmem

/-! ### The nesting -/

namespace Nesting

theorem between_upper (limit : Nat) (state : State) (glyph : Glyph) :
    between limit state glyph.upper = between limit state glyph := by
  rw [between, between, Glyph.isAsciiBlank_upper, Glyph.isChar_upper rfl, Glyph.isChar_upper rfl,
    Glyph.isChar_upper rfl, Glyph.isChar_upper rfl, Glyph.isChar_upper rfl]

theorem step_upper (limit : Nat) (state : State) (glyph : Glyph) :
    step limit state glyph.upper = step limit state glyph := by
  rw [step, step, between_upper, between_upper, Glyph.endsWord_upper, Glyph.isChar_upper rfl,
    Glyph.isChar_upper rfl, Glyph.isChar_upper rfl]

theorem overflowOver_upper (limit : Nat) (text : List Glyph) (offset : Nat) (state : State) :
    overflowOver limit (text.map Glyph.upper) offset state =
      overflowOver limit text offset state := by
  induction text generalizing offset state with
  | nil => rfl
  | cons glyph rest ih =>
      rw [List.map_cons, overflowOver, overflowOver, step_upper, Glyph.width_upper]
      cases step limit state glyph with
      | next state => exact ih _ state
      | overflow => rfl
      | unmatched => rfl

theorem overflow?_upper (limit : Int) (text : List Glyph) :
    overflow? limit (text.map Glyph.upper) = overflow? limit text := by
  rw [overflow?, overflow?, overflowOver_upper]

end Nesting

/-! ### The scannerless reader -/

namespace Scannerless

theorem skipTriviaOver_upper (inComment : Bool) (text : List Glyph) :
    skipTriviaOver inComment (text.map Glyph.upper) =
      (skipTriviaOver inComment text).map Glyph.upper := by
  induction text generalizing inComment with
  | nil => cases inComment <;> rfl
  | cons glyph rest ih =>
      cases inComment with
      | true =>
          rw [List.map_cons, skipTriviaOver, skipTriviaOver, Glyph.isChar_upper rfl]
          exact ih _
      | false =>
          rw [List.map_cons, skipTriviaOver, skipTriviaOver, Glyph.isAsciiBlank_upper,
            Glyph.isChar_upper rfl]
          split_ifs
          · exact ih _
          · exact ih _
          · rfl

theorem skipTrivia_upper (text : List Glyph) :
    skipTrivia (text.map Glyph.upper) = (skipTrivia text).map Glyph.upper :=
  skipTriviaOver_upper false text

/-- The node of the expression that the completed text is. -/
def completedNode? (text : List Glyph) : Option Grammar.Node :=
  ((completion? text).bind Grammar.match?).map Prod.fst

theorem diagnose_eq (text : List Glyph) :
    diagnose text =
      if text.head?.any (Glyph.isChar ')') then .unmatchedClose
      else
        match completedNode? text with
        | none => .noExpression
        | some (.error fault) => fault
        | some (.ok _) => .incompleteExpression := by
  rw [diagnose, completedNode?]
  rcases (completion? text).bind Grammar.match? with _ | ⟨_ | _, _⟩ <;> rfl

-- The completed texts are not the same in upper case: what completes a text may hold a
-- letter, and that is in lower case behind both.
theorem completedNode?_upper {text : List Glyph} (hunquoted : Unquoted text) :
    completedNode? (text.map Glyph.upper) = completedNode? text := by
  have hcomplete := completion?_upper text
  rw [completedNode?, completedNode?]
  cases hfull : completion? text with
  | none =>
      rw [hfull, Option.map_none, Option.map_eq_none_iff] at hcomplete
      rw [hcomplete]
  | some full =>
      rw [hfull, Option.map_some, Option.map_eq_some_iff] at hcomplete
      obtain ⟨full', hfull', heq⟩ := hcomplete
      rw [hfull']
      exact Grammar.match?_congr (hunquoted.map_upper.of_completion? hfull')
        (hunquoted.of_completion? hfull) heq

/-- What is wrong with a text does not depend on the case of its letters. -/
theorem diagnose_upper {text : List Glyph} (hunquoted : Unquoted text) :
    diagnose (text.map Glyph.upper) = diagnose text := by
  rw [diagnose_eq, diagnose_eq, head?_any_map_upper (Glyph.isChar_upper rfl),
    completedNode?_upper hunquoted]

/-- A fault and the text from there on, in upper case. -/
def FaultAt.upper (found : FaultAt) : FaultAt :=
  ⟨found.fault, found.text.map Glyph.upper⟩

theorem FaultAt.error_upper (file text : Bytes) (found : FaultAt) :
    found.upper.error file (text.map upperByte) = found.error file text := by
  rw [error, error, upper, locate_map_upperByte, List.length_map, glyphWidth_map_upper]

theorem next?_upper (fuel : Nat) {text : List Glyph} (hunquoted : Unquoted text) :
    next? fuel (text.map Glyph.upper) =
      ((next? fuel text).map (Option.map upperRest)).mapError FaultAt.upper := by
  rw [next?, next?, skipTrivia_upper, Grammar.matchOver_upper _ _ hunquoted]
  cases hstart : skipTrivia text with
  | nil => rfl
  | cons glyph rest =>
      have hunquoted' : Unquoted (glyph :: rest) :=
        hunquoted.of_suffix (hstart ▸ skipTriviaOver_suffix false text)
      have hdiagnose := diagnose_upper hunquoted'
      rw [List.map_cons] at hdiagnose
      cases Grammar.matchOver fuel [] text with
      | none =>
          simp only [Option.map_none, List.map_cons, hdiagnose]
          rfl
      | some found =>
          obtain ⟨node, behind⟩ := found
          cases node <;> rfl

theorem readAllOver_upper {fuel : Nat} (count : Nat) (found : List Value) {text : List Glyph}
    (hfuel : text.length < fuel) (hunquoted : Unquoted text) :
    readAllOver fuel count found (text.map Glyph.upper) =
      (readAllOver fuel count found text).mapError FaultAt.upper := by
  induction count generalizing found text with
  | zero => rfl
  | succ count ih =>
      rw [readAllOver, readAllOver, next?_upper fuel hunquoted]
      cases hnext : next? fuel text with
      | error fault => rfl
      | ok next =>
          rcases next with _ | ⟨value, rest⟩
          · rfl
          · have hwalk := ((next?_eq_some hfuel).mp hnext).2
            have hrest : rest.length < fuel := (Grammar.length_walk hwalk).trans hfuel
            exact ih _ hrest (hunquoted.of_suffix (Grammar.walk_suffix hwalk))

theorem check_map_upperByte (limit : Int) (file text : Bytes) :
    check limit file (text.map upperByte) = check limit file text := by
  have hvalid : ∀ glyph : Glyph, glyph.upper.isValid = glyph.isValid :=
    Glyph.satisfies_upper fun _ => rfl
  have hstray : strayOffset (text.map upperByte) = strayOffset text := by
    rw [strayOffset, strayOffset, glyphs_map_upperByte, takeWhile_map_upper hvalid,
      glyphWidth_map_upper]
  simp only [check, hstray, locate_map_upperByte, glyphs_map_upperByte, Nesting.overflow?_upper,
    dropWhile_map_upper hvalid]
  rcases (glyphs text).dropWhile Glyph.isValid with _ | ⟨c | byte, rest⟩ <;> rfl

theorem readAll_map_upperByte (limit : Int) (file : Bytes) {text : Bytes} (hquote : 34 ∉ text) :
    readAll limit file (text.map upperByte) = readAll limit file text := by
  have hcheck' := check_map_upperByte limit file text
  cases hcheck : check limit file text with
  | error error =>
      rw [hcheck] at hcheck'
      rw [readAll, readAll, hcheck, hcheck']
      rfl
  | ok =>
      rw [hcheck] at hcheck'
      rw [readAll_eq hcheck, readAll_eq hcheck', glyphs_map_upperByte, List.length_map,
        readAllOver_upper _ _ (Nat.lt_succ_self _) (unquoted_glyphs hquote)]
      cases readAllOver _ _ [] (glyphs text) with
      | ok values => rfl
      | error fault => exact congrArg Except.error (fault.error_upper file text)

end Scannerless

namespace Reader

/-- Outside of string literals, reading does not tell the cases of letters apart: a text in
upper case is read as the same values, or with the same message at the same place. -/
theorem readProgram_caseless (reader : Reader) (file : Bytes) {text : Bytes}
    (hquote : 34 ∉ text) :
    reader.readProgram file (.ofBytes (text.map upperByte)) =
      reader.readProgram file (.ofBytes text) := by
  have hread : reader.readAll file (text.map upperByte) = reader.readAll file text := by
    cases reader with
    | tokens => exact TokenReader.readAll_map_upperByte file hquote TokenReader.defaultLimit
    | scannerless =>
        exact Scannerless.readAll_map_upperByte TokenReader.defaultLimit file hquote
  change (reader.readAll file (text.map upperByte)).mapError _ =
    (reader.readAll file text).mapError _
  rw [hread]

/-- Names, the empty list and what is left open are read as they are in upper case. -/
theorem readProgram_caseless_mixed :
    34 ∉ utf8 "(Setq é 'nil) (car" ∧
      Reader.tokens.readProgram defaultName (.ofBytes (utf8 "(SETQ é 'NIL) (CAR")) =
        Reader.tokens.readProgram defaultName (.ofBytes (utf8 "(Setq é 'nil) (car")) ∧
      Reader.scannerless.readProgram defaultName (.ofBytes (utf8 "(SETQ é 'NIL) (CAR")) =
        Reader.scannerless.readProgram defaultName (.ofBytes (utf8 "(Setq é 'nil) (car")) := by
  have hquote : 34 ∉ utf8 "(Setq é 'nil) (car" := by decide
  have hupper : utf8 "(SETQ é 'NIL) (CAR" = (utf8 "(Setq é 'nil) (car").map upperByte := by decide
  rw [hupper]
  exact ⟨hquote, readProgram_caseless .tokens defaultName hquote,
    readProgram_caseless .scannerless defaultName hquote⟩

end Reader

end MiniLisp
