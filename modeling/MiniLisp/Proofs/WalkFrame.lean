import MiniLisp.Proofs.GrammarWalk
import MiniLisp.Proofs.Lexing

/-!
What follows an expression makes no difference to it.  The walk along a text finds the
same parts whatever stands behind them, as long as that does not go on with the last
symbol.  So an expression can be matched without what follows it, and with anything else
behind it.
-/

namespace MiniLisp

namespace Grammar

/-- A text that goes on with no symbol before it. -/
def Blunt (text : List Glyph) : Prop :=
  text.head?.any isSymbolGlyph = false

theorem isSymbolGlyph_of_isDigit {glyph : Glyph} (hdigit : isDigit glyph = true) :
    isSymbolGlyph glyph = true := by
  cases glyph with
  | stray byte => rfl
  | char c =>
      simp only [isDigit, Glyph.satisfies, Lexer.isDigit, Bool.and_eq_true, decide_eq_true_eq]
        at hdigit
      have hends : endsSymbol c = false := by
        rw [Bool.eq_false_iff]
        intro hends
        simp only [endsSymbol, isGap, Bool.or_eq_true, beq_iff_eq] at hends
        have hcode : 48 ≤ c.toNat := hdigit.1
        rcases hends with ((((((((rfl | rfl) | rfl) | rfl) | hfeed) | rfl) | rfl) | rfl) | rfl)
        all_goals first | omega | exact absurd hcode (by decide)
      simp [isSymbolGlyph, Glyph.satisfies, hends]

theorem Blunt.head?_isDigit {text : List Glyph} (hblunt : Blunt text) :
    text.head?.any isDigit = false := by
  cases text with
  | nil => rfl
  | cons glyph text =>
      rw [Bool.eq_false_iff]
      intro hdigit
      have hsymbol : isSymbolGlyph glyph = false := hblunt
      rw [isSymbolGlyph_of_isDigit hdigit] at hsymbol
      cases hsymbol

/-! ### Gaps -/

theorem skipGapsOver_append {inComment : Bool} {text : List Glyph}
    (hskip : skipGapsOver inComment text ≠ []) (more : List Glyph) :
    skipGapsOver inComment (text ++ more) = skipGapsOver inComment text ++ more := by
  induction text generalizing inComment with
  | nil => cases inComment <;> exact absurd rfl hskip
  | cons glyph text ih =>
      cases inComment with
      | true => exact ih hskip
      | false =>
          rw [skipGapsOver] at hskip
          rw [List.cons_append, skipGapsOver, skipGapsOver]
          split_ifs at hskip ⊢
          · exact ih hskip
          · exact ih hskip
          · rfl

theorem skipGaps_append {text : List Glyph} (hskip : skipGaps text ≠ []) (more : List Glyph) :
    skipGaps (text ++ more) = skipGaps text ++ more :=
  skipGapsOver_append hskip more

theorem skipGaps_skipGaps (text : List Glyph) : skipGaps (skipGaps text) = skipGaps text := by
  cases hskip : skipGaps text with
  | nil => rfl
  | cons glyph rest =>
      obtain ⟨hgap, hcomment⟩ := Rule.skipGapsOver_head hskip
      simp [skipGaps, skipGapsOver, hgap, hcomment]

/-- A text of nothing but gaps and comments ends in a comment, or in a gap. -/
theorem skipGapsOver_eq_nil {inComment : Bool} {text : List Glyph}
    (hskip : skipGapsOver inComment text = []) :
    (∀ more, skipGapsOver inComment (text ++ more) = skipGapsOver true more) ∨
      (∀ more, skipGapsOver inComment (text ++ more) = skipGapsOver false more) ∧
        ∀ glyph, text.getLast? = some glyph → glyph.satisfies isGap = true := by
  induction text generalizing inComment with
  | nil =>
      cases inComment with
      | true => exact .inl fun _ => rfl
      | false => exact .inr ⟨fun _ => rfl, by simp⟩
  | cons first text ih =>
      have hlater : ∀ inner, skipGapsOver inner text = [] →
          (text = [] → inner = false → first.satisfies isGap = true) →
          (∀ more, skipGapsOver inner (text ++ more) = skipGapsOver true more) ∨
            (∀ more, skipGapsOver inner (text ++ more) = skipGapsOver false more) ∧
              ∀ glyph, (first :: text).getLast? = some glyph →
                glyph.satisfies isGap = true := by
        intro inner hinner hfirst
        rcases ih hinner with hcomment | ⟨hcode, hlast⟩
        · exact .inl hcomment
        · refine .inr ⟨hcode, fun glyph hglyph => ?_⟩
          cases text with
          | nil =>
              cases hglyph
              refine hfirst rfl ?_
              have hsame := hcode [.char 'x']
              cases inner with
              | false => rfl
              | true => cases hsame
          | cons second text => exact hlast glyph (by simpa using hglyph)
      cases inComment with
      | true =>
          refine hlater _ hskip fun _ hline => ?_
          have hfirst : first.isChar '\n' = true := by simpa using hline
          rw [Rule.eq_of_isChar hfirst]
          rfl
      | false =>
          rw [skipGapsOver] at hskip
          simp only [List.cons_append, skipGapsOver]
          split_ifs at hskip ⊢ with hgap
          · exact hlater false hskip fun _ _ => hgap
          · exact hlater true hskip (by simp)

/-! ### Parts -/

theorem stringOver_append {done text literal rest : List Glyph} {escaped : Bool}
    (hstring : stringOver done escaped text = some (literal, rest)) (more : List Glyph) :
    stringOver done escaped (text ++ more) = some (literal, rest ++ more) := by
  induction text generalizing done escaped with
  | nil => cases escaped <;> cases hstring
  | cons glyph text ih =>
      cases escaped with
      | true => exact ih hstring
      | false =>
          rw [stringOver] at hstring
          rw [List.cons_append, stringOver]
          split_ifs at hstring ⊢
          · cases hstring
            rfl
          · exact ih hstring

/-- A string literal that does not end goes on with what follows. -/
theorem stringOver_open {done text : List Glyph} {escaped : Bool}
    (hopen : stringOver done escaped text = none) :
    ∃ inner, ∀ more, stringOver done escaped (text ++ more) =
      stringOver (text.reverse ++ done) inner more := by
  induction text generalizing done escaped with
  | nil => exact ⟨escaped, fun _ => rfl⟩
  | cons glyph text ih =>
      cases escaped with
      | true =>
          obtain ⟨inner, hinner⟩ := ih hopen
          exact ⟨inner, fun more => by simpa [stringOver] using hinner more⟩
      | false =>
          rw [stringOver] at hopen
          split_ifs at hopen with hquote
          obtain ⟨inner, hinner⟩ := ih hopen
          exact ⟨inner, fun more => by simpa [stringOver, hquote] using hinner more⟩

theorem length_stringOver_lt {done text literal rest : List Glyph} {escaped : Bool}
    (hstring : stringOver done escaped text = some (literal, rest)) :
    rest.length < text.length := by
  cases text with
  | nil => cases escaped <;> cases hstring
  | cons glyph text =>
      rw [List.length_cons, Nat.lt_succ_iff]
      cases escaped with
      | true => exact Rule.length_stringOver hstring
      | false =>
          rw [stringOver] at hstring
          split_ifs at hstring
          · cases hstring
            exact Nat.le_refl _
          · exact Rule.length_stringOver hstring

/-- A part is the same with anything behind it that does not go on with it. -/
theorem part?_append {text rest more : List Glyph} {part : Part}
    (hpart : part? text = some (part, rest)) (hend : rest = [] → Blunt more) :
    part? (text ++ more) = some (part, rest ++ more) := by
  have hshorter := Rule.length_part? hpart
  cases text with
  | nil => cases hpart
  | cons first behind =>
      have hblunt : behind = [] → Blunt more := by
        rintro rfl
        exact hend (List.eq_nil_of_length_eq_zero (Nat.lt_one_iff.mp hshorter))
      have hdigit : (behind ++ more).head?.any isDigit = behind.head?.any isDigit := by
        cases behind with
        | nil => exact (hblunt rfl).head?_isDigit
        | cons second behind => rfl
      have hsymbol : (behind ++ more).head?.any isSymbolGlyph =
          behind.head?.any isSymbolGlyph := by
        cases behind with
        | nil => exact hblunt rfl
        | cons second behind => rfl
      rw [part?] at hpart
      rw [List.cons_append, part?, hdigit, hsymbol]
      split_ifs at hpart ⊢
      · cases hpart
        rfl
      · cases hpart
        rfl
      · cases hpart
        rfl
      · obtain ⟨⟨literal, rest'⟩, hliteral, hfound⟩ := Option.map_eq_some_iff.mp hpart
        cases hfound
        rw [stringOver_append hliteral]
        rfl
      · cases hpart
        obtain ⟨htake, hdrop⟩ := @takeWhile_dropWhile_append _ isDigit behind more
          fun hnil => (hend hnil).head?_isDigit
        rw [intFrom, htake, hdrop]
      · cases hpart
        obtain ⟨htake, hdrop⟩ := @takeWhile_dropWhile_append _ isSymbolGlyph behind more hend
        rw [symbolFrom, htake, hdrop]
      · cases hpart
        rfl
      · cases hpart
        obtain ⟨htake, hdrop⟩ := @takeWhile_dropWhile_append _ isSymbolGlyph behind more hend
        rw [symbolFrom, htake, hdrop]

/-- What a class leaves of a text with more behind it is left of the text alone. -/
theorem takeWhile_dropWhile_cut {p : Glyph → Bool} {text rest more : List Glyph}
    (hdrop : (text ++ more).dropWhile p = rest ++ more) :
    (text ++ more).takeWhile p = text.takeWhile p ∧ text.dropWhile p = rest ∧
      (text ++ more).head?.any p = text.head?.any p := by
  have hend : text.dropWhile p = [] → more.head?.any p = false := by
    intro hnil
    have hmore : more.dropWhile p = rest ++ more := by
      rwa [List.dropWhile_append, hnil] at hdrop
    have hlength := (List.dropWhile_suffix (l := more) p).length_le
    rw [hmore, List.length_append] at hlength
    obtain rfl : rest = [] := List.eq_nil_of_length_eq_zero (by omega)
    have hhead := List.head?_dropWhile_not p more
    rw [hmore, List.nil_append] at hhead
    cases more with
    | nil => rfl
    | cons glyph more => exact hhead
  obtain ⟨htake, hdrop'⟩ := takeWhile_dropWhile_append hend
  rw [hdrop'] at hdrop
  refine ⟨htake, List.append_cancel_right hdrop, ?_⟩
  cases text with
  | nil => exact hend rfl
  | cons glyph text => rfl

theorem stringOver_cut {done text literal rest more : List Glyph} {escaped : Bool}
    (hstring : stringOver done escaped (text ++ more) = some (literal, rest ++ more)) :
    stringOver done escaped text = some (literal, rest) := by
  cases htext : stringOver done escaped text with
  | some found =>
      obtain ⟨literal', rest'⟩ := found
      rw [stringOver_append htext] at hstring
      simpa using hstring
  | none =>
      obtain ⟨inner, hinner⟩ := stringOver_open htext
      rw [hinner] at hstring
      have hlength := length_stringOver_lt hstring
      rw [List.length_append] at hlength
      omega

/-- A part is the same without what follows it. -/
theorem part?_cut {text rest more : List Glyph} {part : Part} (htext : text ≠ [])
    (hpart : part? (text ++ more) = some (part, rest ++ more)) :
    part? text = some (part, rest) := by
  cases text with
  | nil => exact absurd rfl htext
  | cons first behind =>
      have hhead : ∀ p : Glyph → Bool, (behind ++ more).head?.any p ≠ true →
          behind.head?.any p = false := by
        intro p hnot
        cases behind with
        | nil => rfl
        | cons second behind => simpa using hnot
      have hsame : ∀ {part' : Part}, some (part', behind ++ more) = some (part, rest ++ more) →
          some (part', behind) = some (part, rest) := by
        intro part' heq
        simpa using heq
      rw [List.cons_append, part?] at hpart
      rw [part?]
      split_ifs at hpart with hopen hclose hquote hstring hint hdot hnext hsymbol
      · rw [if_pos hopen, hsame hpart]
      · rw [if_neg hopen, if_pos hclose, hsame hpart]
      · rw [if_neg hopen, if_neg hclose, if_pos hquote, hsame hpart]
      · rw [if_neg hopen, if_neg hclose, if_neg hquote, if_pos hstring]
        obtain ⟨⟨literal, rest'⟩, hliteral, hfound⟩ := Option.map_eq_some_iff.mp hpart
        cases hfound
        rw [stringOver_cut hliteral]
        rfl
      all_goals
        rw [if_neg hopen, if_neg hclose, if_neg hquote, if_neg hstring]
      · rw [intFrom, Option.some.injEq, Prod.mk.injEq] at hpart
        obtain ⟨htake, hdrop, hdigit⟩ := takeWhile_dropWhile_cut hpart.2
        rw [hdigit] at hint
        rw [if_pos hint, intFrom, ← htake, hdrop, hpart.1]
      all_goals
        have hint' : ¬(isDigit first || first.isChar '-' && behind.head?.any isDigit) = true := by
          intro hyes
          refine hint ?_
          cases behind with
          | nil =>
              have hdigit : isDigit first = true := by simpa using hyes
              simp [hdigit]
          | cons second behind => exact hyes
        rw [if_neg hint']
      · rw [symbolFrom, Option.some.injEq, Prod.mk.injEq] at hpart
        obtain ⟨htake, hdrop, hsymbol⟩ := takeWhile_dropWhile_cut hpart.2
        rw [hsymbol] at hnext
        rw [if_pos hdot, if_pos hnext, symbolFrom, ← htake, hdrop, hpart.1]
      · rw [if_pos hdot, if_neg (by simp [hhead _ hnext]), hsame hpart]
      · rw [symbolFrom, Option.some.injEq, Prod.mk.injEq] at hpart
        obtain ⟨htake, hdrop, _⟩ := takeWhile_dropWhile_cut hpart.2
        rw [if_neg hdot, if_pos hsymbol, symbolFrom, ← htake, hdrop, hpart.1]

theorem stringOver_suffix {done text literal rest : List Glyph} {escaped : Bool}
    (hstring : stringOver done escaped text = some (literal, rest)) : rest <:+ text := by
  induction text generalizing done escaped with
  | nil => cases escaped <;> cases hstring
  | cons glyph text ih =>
      cases escaped with
      | true => exact (ih hstring).trans (List.suffix_cons _ _)
      | false =>
          rw [stringOver] at hstring
          split_ifs at hstring
          · cases hstring
            exact List.suffix_cons _ _
          · exact (ih hstring).trans (List.suffix_cons _ _)

theorem part?_suffix {text rest : List Glyph} {part : Part}
    (hpart : part? text = some (part, rest)) : rest <:+ text := by
  cases text with
  | nil => cases hpart
  | cons first behind =>
      refine List.IsSuffix.trans ?_ (List.suffix_cons first behind)
      rw [part?] at hpart
      split_ifs at hpart
      · cases hpart
        exact List.suffix_refl _
      · cases hpart
        exact List.suffix_refl _
      · cases hpart
        exact List.suffix_refl _
      · obtain ⟨⟨literal, rest'⟩, hliteral, hfound⟩ := Option.map_eq_some_iff.mp hpart
        cases hfound
        exact stringOver_suffix hliteral
      · cases hpart
        exact List.dropWhile_suffix _
      · cases hpart
        exact List.dropWhile_suffix _
      · cases hpart
        exact List.suffix_refl _
      · cases hpart
        exact List.dropWhile_suffix _

theorem skipGapsOver_suffix (inComment : Bool) (text : List Glyph) :
    skipGapsOver inComment text <:+ text := by
  induction text generalizing inComment with
  | nil => cases inComment <;> exact List.suffix_refl _
  | cons glyph text ih =>
      have hrest := fun inner => (ih inner).trans (List.suffix_cons glyph text)
      cases inComment with
      | true => exact hrest _
      | false =>
          rw [skipGapsOver]
          split_ifs
          · exact hrest false
          · exact hrest true
          · exact List.suffix_refl _

theorem skipGaps_suffix (text : List Glyph) : skipGaps text <:+ text :=
  skipGapsOver_suffix false text

/-- Behind the tail of a list only the first glyph counts. -/
theorem partAfterTail?_cons (first : Glyph) (behind : List Glyph) :
    partAfterTail? (first :: behind) =
      if first.isChar ')' then some (.closeParen, behind)
      else if first.isChar '.' then some (.dot, behind) else none := rfl

/-! ### The next part -/

section

variable {waiting : List Open} {text rest more : List Glyph} {part : Part}

theorem nextPart?_append (hpart : nextPart? waiting text = some (part, rest))
    (hend : rest = [] → Blunt more) :
    nextPart? waiting (text ++ more) = some (part, rest ++ more) := by
  rw [nextPart?] at hpart ⊢
  have hskip : skipGaps text ≠ [] := by
    intro hnil
    rw [hnil] at hpart
    split_ifs at hpart <;> cases hpart
  rw [skipGaps, skipGapsOver_append hskip]
  split_ifs at hpart ⊢
  · obtain ⟨first, behind, hcons⟩ := List.exists_cons_of_ne_nil hskip
    change skipGapsOver false text = _ at hcons
    rw [skipGaps, hcons, partAfterTail?_cons] at hpart
    rw [hcons, List.cons_append, partAfterTail?_cons]
    split_ifs at hpart ⊢ <;> cases hpart <;> rfl
  · exact part?_append hpart hend

theorem nextPart?_suffix (hpart : nextPart? waiting text = some (part, rest)) :
    rest <:+ text := by
  refine List.IsSuffix.trans ?_ (skipGapsOver_suffix false text)
  rw [nextPart?, skipGaps] at hpart
  split_ifs at hpart
  · cases hskip : skipGapsOver false text with
    | nil => simp [hskip, partAfterTail?] at hpart
    | cons first behind =>
        rw [hskip, partAfterTail?_cons] at hpart
        split_ifs at hpart <;> cases hpart <;> exact List.suffix_cons _ _
  · exact part?_suffix hpart

theorem nextPart?_cut (hpart : nextPart? waiting (text ++ more) = some (part, rest ++ more)) :
    nextPart? waiting text = some (part, rest) := by
  by_cases hskip : skipGaps text = []
  · -- The part would be all behind the text.
    obtain ⟨later, hle, hgaps⟩ : ∃ later, later.length ≤ more.length ∧
        skipGaps (text ++ more) = skipGaps later := by
      rcases skipGapsOver_eq_nil hskip with hcomment | ⟨hcode, _⟩
      · exact ⟨_, (List.dropWhile_suffix _).length_le,
          (hcomment more).trans (Rule.skipGapsOver_line more)⟩
      · exact ⟨more, Nat.le_refl _, hcode more⟩
    rw [nextPart?, hgaps] at hpart
    have hlength := @length_nextPart? waiting later (rest ++ more) part hpart
    rw [List.length_append] at hlength
    omega
  · rw [nextPart?] at hpart ⊢
    rw [skipGaps, skipGapsOver_append hskip] at hpart
    split_ifs at hpart ⊢
    · obtain ⟨first, behind, hcons⟩ := List.exists_cons_of_ne_nil hskip
      change skipGapsOver false text = _ at hcons
      rw [hcons, List.cons_append, partAfterTail?_cons] at hpart
      rw [skipGaps, hcons, partAfterTail?_cons]
      split_ifs at hpart ⊢ <;> simpa using hpart
    · exact part?_cut hskip hpart

end

/-! ### The walk -/

/-- Gaps make no difference to a walk. -/
theorem walk_congr {text text' : List Glyph} (hgaps : skipGaps text = skipGaps text')
    (waiting : List Open) : walk waiting text = walk waiting text' := by
  rw [walk_eq, walk_eq, nextPart?, nextPart?, hgaps]

theorem walk_skipGaps (waiting : List Open) (text : List Glyph) :
    walk waiting (skipGaps text) = walk waiting text :=
  walk_congr (skipGaps_skipGaps text) waiting

theorem walk_skipGaps_append (waiting : List Open) {text : List Glyph}
    (hskip : skipGaps text ≠ []) (more : List Glyph) :
    walk waiting (skipGaps text ++ more) = walk waiting (text ++ more) := by
  have hidem := skipGaps_skipGaps text
  refine walk_congr ?_ waiting
  rw [skipGaps_append (hidem.symm ▸ hskip), skipGaps_append hskip, hidem]

theorem walk_of_nextPart? {waiting : List Open} {text rest : List Glyph} {part : Part}
    (hpart : nextPart? waiting text = some (part, rest)) :
    walk waiting text = (take waiting part).bind fun progress => resume progress rest := by
  rw [walk_eq, hpart, Option.bind_some]

theorem walk_nil (waiting : List Open) : walk waiting [] = none := by
  rw [walk_eq, nextPart?]
  split_ifs <;> rfl

/-- What a walk does not take is the end of the text. -/
theorem walk_suffix {waiting : List Open} {text rest : List Glyph} {node : Node}
    (hwalk : walk waiting text = some (node, rest)) : rest <:+ text := by
  rw [walk_eq] at hwalk
  obtain ⟨⟨part, behind⟩, hpart, hwalk⟩ := Option.bind_eq_some_iff.mp hwalk
  obtain ⟨progress, _, hresume⟩ := Option.bind_eq_some_iff.mp hwalk
  have hshorter := length_nextPart? hpart
  cases progress with
  | done node =>
      cases hresume
      exact nextPart?_suffix hpart
  | more waiting' => exact (walk_suffix hresume).trans (nextPart?_suffix hpart)
termination_by text.length

theorem length_walk {waiting : List Open} {text rest : List Glyph} {node : Node}
    (hwalk : walk waiting text = some (node, rest)) : rest.length < text.length := by
  rw [walk_eq] at hwalk
  obtain ⟨⟨part, behind⟩, hpart, hwalk⟩ := Option.bind_eq_some_iff.mp hwalk
  obtain ⟨progress, _, hresume⟩ := Option.bind_eq_some_iff.mp hwalk
  refine Nat.lt_of_le_of_lt ?_ (length_nextPart? hpart)
  cases progress with
  | done node =>
      cases hresume
      exact Nat.le_refl _
  | more waiting' => exact (walk_suffix hresume).length_le

/-- An expression is the same with anything behind it that does not go on with it. -/
theorem walk_append {waiting : List Open} {text rest more : List Glyph} {node : Node}
    (hwalk : walk waiting text = some (node, rest)) (hend : rest = [] → Blunt more) :
    walk waiting (text ++ more) = some (node, rest ++ more) := by
  rw [walk_eq] at hwalk ⊢
  obtain ⟨⟨part, behind⟩, hpart, hwalk⟩ := Option.bind_eq_some_iff.mp hwalk
  obtain ⟨progress, htake, hresume⟩ := Option.bind_eq_some_iff.mp hwalk
  have hshorter := length_nextPart? hpart
  cases progress with
  | done node =>
      cases hresume
      rw [nextPart?_append hpart hend]
      simp only [Option.bind_some, htake]
      rfl
  | more waiting' =>
      have hbehind : behind = [] → Blunt more := by
        rintro rfl
        rw [resume, walk_nil] at hresume
        cases hresume
      rw [nextPart?_append hpart hbehind]
      simp only [Option.bind_some, htake]
      exact walk_append hresume hend
termination_by text.length

/-- An expression is the same without what follows it. -/
theorem walk_cut {waiting : List Open} {text rest more : List Glyph} {node : Node}
    (hwalk : walk waiting (text ++ more) = some (node, rest ++ more)) :
    walk waiting text = some (node, rest) := by
  rw [walk_eq] at hwalk ⊢
  obtain ⟨⟨part, behind⟩, hpart, hwalk⟩ := Option.bind_eq_some_iff.mp hwalk
  obtain ⟨progress, htake, hresume⟩ := Option.bind_eq_some_iff.mp hwalk
  cases progress with
  | done node =>
      cases hresume
      rw [nextPart?_cut hpart]
      simp only [Option.bind_some, htake]
      rfl
  | more waiting' =>
      obtain ⟨behind', rfl⟩ : ∃ behind', behind = behind' ++ more := by
        have hmore : more <:+ behind :=
          (List.suffix_append rest more).trans (walk_suffix hresume)
        obtain ⟨behind', heq⟩ := hmore
        exact ⟨behind', heq.symm⟩
      have hpart' := nextPart?_cut hpart
      have hshorter := length_nextPart? hpart'
      rw [hpart']
      simp only [Option.bind_some, htake]
      exact walk_cut hresume
termination_by text.length

end Grammar

end MiniLisp
