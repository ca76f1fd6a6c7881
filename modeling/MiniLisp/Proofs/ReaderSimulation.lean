import MiniLisp.Proofs.Incomplete
import MiniLisp.Proofs.PlainText
import MiniLisp.Proofs.TokenGrammar

/-!
Both readers walk along a plain text with a stack of what is still open.  The stacks
stay aligned as long as the token reader finds no fault.  Where it finds one, the
grammar may go on, but no value can come of what it has open by then: it is doomed.
So both come out of an expression with the same value at the same place, or both
without a value.
-/

namespace MiniLisp

namespace Grammar

/-! ### Doomed expressions -/

/-- A waiting part whose expression will have a fault, whatever follows. -/
def Spoiled : Open → Prop
  | .quote => False
  | .list list => list.fault ≠ none
  | .tail list =>
      list.fault ≠ none ∨ list.dotted = true ∧ (list.items = [] ∨ list.tails ≠ [])

/-- A list with a tail but no items, or with two tails. -/
def OpenList.Misdotted (list : OpenList) : Prop :=
  list.dotted = true ∧ (list.items = [] ∧ list.tails ≠ [] ∨ 2 ≤ list.tails.length)

/-- One of the waiting parts is spoiled. -/
inductive Tainted : (waiting : List Open) → Prop
  | here {part : Open} {outer : List Open} (hspoiled : Spoiled part) : Tainted (part :: outer)
  | outside {part : Open} {outer : List Open} (houter : Tainted outer) :
      Tainted (part :: outer)

/-- The expression that waits for the parts will have a fault.  A misdotted list is
always innermost, for nothing opens inside of it any more. -/
inductive Doomed : (waiting : List Open) → Prop
  | tainted {waiting : List Open} (htainted : Tainted waiting) : Doomed waiting
  | misdotted {list : OpenList} {outer : List Open} (hmisdotted : list.Misdotted) :
      Doomed (.list list :: outer)

/-- Where a doomed expression leads. -/
def Failing : Progress → Prop
  | .more waiting => Doomed waiting
  | .done node => ∃ fault, node = .error fault

theorem OpenList.fault_note (list : OpenList) (fault : ReadFault) :
    (list.note fault).fault ≠ none := by
  cases hfault : list.fault <;> simp [OpenList.note, hfault]

theorem OpenList.fault_addItem {list : OpenList} (hfault : list.fault ≠ none)
    (node : Node) : (list.addItem node).fault ≠ none := by
  cases node with
  | error fault => exact list.fault_note fault
  | ok value => exact hfault

/-- A node that is a fault spoils what it is supplied to. -/
theorem failing_supply_error (waiting : List Open) (fault : ReadFault) :
    Failing (supply waiting (.error fault)) := by
  induction waiting with
  | nil => exact ⟨fault, rfl⟩
  | cons part outer ih =>
      cases part with
      | quote => exact ih
      | list list => exact .tainted (.here (list.fault_note fault))
      | tail list => exact .tainted (.here (list.fault_note fault))

/-- A tail behind a misplaced dot makes a misdotted list. -/
theorem misdotted_addTail {list : OpenList} (value : Value) (hdotted : list.dotted = true)
    (hmisplaced : list.items = [] ∨ list.tails ≠ []) :
    (list.addTail (.ok value)).Misdotted := by
  refine ⟨hdotted, ?_⟩
  rcases hmisplaced with hitems | htails
  · exact .inl ⟨hitems, by simp [OpenList.addTail]⟩
  · have hsome := List.length_pos_iff.mpr htails
    right
    simp only [OpenList.addTail, List.length_cons]
    omega

/-- No node can mend a spoiled part. -/
theorem failing_supply {waiting : List Open} (htainted : Tainted waiting) (node : Node) :
    Failing (supply waiting node) := by
  induction htainted generalizing node with
  | @here part outer hspoiled =>
      cases part with
      | quote => exact hspoiled.elim
      | list list => exact .tainted (.here (OpenList.fault_addItem hspoiled node))
      | tail list =>
          cases node with
          | error fault => exact failing_supply_error _ fault
          | ok value =>
              rcases hspoiled with hfault | ⟨hdotted, hmisplaced⟩
              · exact .tainted (.here hfault)
              · exact .misdotted (misdotted_addTail value hdotted hmisplaced)
  | @outside part outer houter ih =>
      cases part with
      | quote => exact ih _
      | list list => exact .tainted (.outside houter)
      | tail list => exact .tainted (.outside houter)

/-- A list with a fault in it closes as a fault. -/
theorem OpenList.close_of_fault {list : OpenList} (hfault : list.fault ≠ none) :
    ∃ fault, list.close = .error fault := by
  cases hcase : list.fault with
  | none => exact absurd hcase hfault
  | some fault => exact ⟨fault, by simp [OpenList.close, hcase]⟩

theorem OpenList.close_of_misdotted {list : OpenList} (hmisdotted : list.Misdotted) :
    ∃ fault, list.close = .error fault := by
  obtain ⟨items, tails, dotted, fault⟩ := list
  obtain ⟨_, hmisplaced⟩ := hmisdotted
  cases fault with
  | some fault => exact ⟨fault, rfl⟩
  | none =>
      cases tails with
      | nil => simp at hmisplaced
      | cons tail tails =>
          cases items with
          | nil => exact ⟨_, rfl⟩
          | cons item items =>
              cases tails with
              | nil => simp at hmisplaced
              | cons tail' tails => exact ⟨_, rfl⟩

/-- A list that is closed as a fault. -/
theorem failing_close {list : OpenList} {outer : List Open}
    (hclose : ∃ fault, list.close = .error fault) : Failing (supply outer list.close) := by
  obtain ⟨fault, hfault⟩ := hclose
  rw [hfault]
  exact failing_supply_error outer fault

/-- Whatever part a tainted expression takes, it stays doomed. -/
theorem failing_take_of_tainted {waiting : List Open} {part : Part} {progress : Progress}
    (htainted : Tainted waiting) (htake : take waiting part = some progress) :
    Failing progress := by
  cases part with
  | openParen =>
      cases htake
      exact .tainted (.outside htainted)
  | quote =>
      cases htake
      exact .tainted (.outside htainted)
  | atom node =>
      cases htake
      exact failing_supply htainted node
  | closeParen =>
      cases htainted with
      | @here part outer hspoiled =>
          cases part with
          | quote => cases htake
          | tail list => cases htake
          | list list =>
              cases htake
              exact failing_close (OpenList.close_of_fault hspoiled)
      | @outside part outer houter =>
          cases part with
          | quote => cases htake
          | tail list => cases htake
          | list list =>
              cases htake
              exact failing_supply houter _
  | dot =>
      cases htainted with
      | @here part outer hspoiled =>
          cases part with
          | quote => cases htake
          | tail list => cases htake
          | list list =>
              cases htake
              exact .tainted (.here (.inl hspoiled))
      | @outside part outer houter =>
          cases part with
          | quote => cases htake
          | tail list => cases htake
          | list list =>
              cases htake
              exact .tainted (.outside houter)

/-- A misdotted list can only end or get one more tail. -/
theorem failing_take_of_misdotted {list : OpenList} {outer : List Open} {part : Part}
    {progress : Progress} (hmisdotted : list.Misdotted)
    (hpart : part = .closeParen ∨ part = .dot)
    (htake : take (.list list :: outer) part = some progress) : Failing progress := by
  rcases hpart with rfl | rfl
  · cases htake
    exact failing_close (OpenList.close_of_misdotted hmisdotted)
  · cases htake
    refine .tainted (.here (.inr ⟨rfl, .inr ?_⟩))
    rcases hmisdotted.2 with ⟨_, htails⟩ | htails
    · exact htails
    · intro hnil
      change list.tails = [] at hnil
      simp [hnil] at htails

theorem partAfterTail?_eq_some {text rest : List Glyph} {part : Part}
    (hpart : partAfterTail? text = some (part, rest)) :
    part = .closeParen ∨ part = .dot := by
  cases text with
  | nil => cases hpart
  | cons first behind =>
      rw [partAfterTail?] at hpart
      split_ifs at hpart
      · cases hpart
        exact .inl rfl
      · cases hpart
        exact .inr rfl

/-- A whole match: what is doomed has no value in the end. -/
theorem matchOver_doomed {fuel : Nat} {waiting : List Open} {text rest : List Glyph}
    {node : Node} (hdoomed : Doomed waiting)
    (hmatch : matchOver fuel waiting text = some (node, rest)) :
    ∃ fault, node = .error fault := by
  induction fuel generalizing waiting text with
  | zero => cases hmatch
  | succ fuel ih =>
      rw [matchOver] at hmatch
      split at hmatch
      · cases hmatch
      · next part behind hpart =>
          have hfailing : ∀ progress, take waiting part = some progress →
              Failing progress := by
            intro progress htake
            cases hdoomed with
            | tainted htainted => exact failing_take_of_tainted htainted htake
            | @misdotted list outer hmisdotted =>
                have hafter : afterTail (.list list :: outer) = true := hmisdotted.1
                rw [if_pos hafter] at hpart
                exact failing_take_of_misdotted hmisdotted
                  (partAfterTail?_eq_some hpart) htake
          split at hmatch
          · cases hmatch
          · next node' htake =>
              cases hmatch
              exact hfailing _ htake
          · next waiting' htake => exact ih (hfailing _ htake) hmatch

end Grammar

/-! ### Aligned stacks -/

open Grammar (Open OpenList)

/-- The open forms of the token reader and the waiting parts of the grammar are the
same, all of them expecting an expression. -/
inductive Aligned : (forms : List OpenForm) → (waiting : List Open) → Prop
  | top : Aligned [] []
  | quote {forms : List OpenForm} {waiting : List Open} (houter : Aligned forms waiting) :
      Aligned (.quote :: forms) (.quote :: waiting)
  | items {forms : List OpenForm} {waiting : List Open} {opener : Token} {done : List Value}
      (houter : Aligned forms waiting) :
      Aligned (.items opener done :: forms) (.list ⟨done, [], false, none⟩ :: waiting)
  | tail {forms : List OpenForm} {waiting : List Open} {opener : Token} {done : List Value}
      (houter : Aligned forms waiting) (hdone : done ≠ []) :
      Aligned (.tail opener done :: forms) (.tail ⟨done, [], true, none⟩ :: waiting)

/-- The stacks match, be it that the innermost list has its tail already. -/
inductive Matched : (forms : List OpenForm) → (waiting : List Open) → Prop
  | aligned {forms : List OpenForm} {waiting : List Open} (haligned : Aligned forms waiting) :
      Matched forms waiting
  | close {forms : List OpenForm} {waiting : List Open} {opener : Token}
      {done : List Value} {tail : Value} (houter : Aligned forms waiting)
      (hdone : done ≠ []) :
      Matched (.close opener done tail :: forms)
        (.list ⟨done, [tail], true, none⟩ :: waiting)

/-- One step of each reader: both go on alike, both are done alike, or the token reader
has found a fault and no value can come of the other. -/
def Simulates : Nest.Progress → Option Grammar.Progress → Prop
  | .more nest, some (.more waiting) =>
      nest.depth = nest.forms.length ∧ Matched nest.forms waiting
  | .done value, some (.done node) => node = .ok value
  | .fault _, some progress => Grammar.Failing progress
  | .fault _, none => True
  | _, _ => False

theorem Aligned.expects {forms : List OpenForm} {waiting : List Open}
    (haligned : Aligned forms waiting) : Nest.Expects forms := by
  cases haligned <;> trivial

theorem Aligned.afterTail {forms : List OpenForm} {waiting : List Open}
    (haligned : Aligned forms waiting) : Grammar.afterTail waiting = false := by
  cases haligned <;> rfl

theorem simulates_supply {forms : List OpenForm} {waiting : List Open}
    (haligned : Aligned forms waiting) (value : Value) :
    Simulates (Nest.supply forms.length forms value)
      (some (Grammar.supply waiting (.ok value))) := by
  induction haligned generalizing value with
  | top => rfl
  | quote houter ih => exact ih value.quote
  | items houter ih => exact ⟨rfl, .aligned (.items houter)⟩
  | tail houter hdone ih => exact ⟨rfl, .close houter hdone⟩

/-- A token that opens a form does so in both readers. -/
theorem simulates_enter {limit : Int} {forms : List OpenForm} {waiting : List Open}
    {form : OpenForm} {part : Open} (hinner : Aligned (form :: forms) (part :: waiting))
    (hadmits : Admits limit forms.length) (token : Token) :
    Simulates (Nest.enter limit ⟨forms.length, forms⟩ form token)
      (some (.more (part :: waiting))) := by
  rw [Nest.enter_eq_more hadmits]
  exact ⟨rfl, .aligned hinner⟩

/-- A literal reads as the same value, or as a fault, in both readers. -/
theorem simulates_atom {forms : List OpenForm} {waiting : List Open}
    (haligned : Aligned forms waiting) {node : Grammar.Node} {progress : Nest.Progress}
    (hvalue : ∀ value, node = .ok value →
      progress = Nest.supply forms.length forms value)
    (hfault : ∀ fault, node = .error fault → ∃ error, progress = .fault error) :
    Simulates progress (Grammar.take waiting (.atom node)) := by
  change Simulates progress (some (Grammar.supply waiting node))
  cases node with
  | ok value =>
      rw [hvalue value rfl]
      exact simulates_supply haligned value
  | error fault =>
      obtain ⟨error, rfl⟩ := hfault fault rfl
      exact Grammar.failing_supply_error waiting fault

/-- Where an expression is expected, the readers take every token alike. -/
theorem simulates_expression {limit : Int} {forms : List OpenForm} {waiting : List Open}
    {c : Char} {behind taken rest : List Glyph} {token : Token}
    (haligned : Aligned forms waiting)
    (hstarts : Lexer.Starts c behind token.kind taken rest)
    (htext : token.text = glyphBytes taken) (hcomment : token.kind ≠ .comment)
    (hdot : token.kind ≠ .dot) (hclose : token.kind ≠ .closeParen)
    (hadmits : token.kind = .quote ∨ token.kind = .openParen → Admits limit forms.length) :
    Simulates (Nest.expression limit ⟨forms.length, forms⟩ token)
      (Grammar.take waiting (Grammar.partOf token.kind taken)) := by
  generalize hkind : token.kind = kind at hstarts
  rw [Nest.expression, hkind]
  cases hstarts with
  | openParen => exact simulates_enter (.items haligned) (hadmits (.inr hkind)) token
  | closeParen => exact absurd hkind hclose
  | quote => exact simulates_enter (.quote haligned) (hadmits (.inl hkind)) token
  | comment => exact absurd hkind hcomment
  | string =>
      apply simulates_atom haligned
      · intro value hnode
        rw [Grammar.stringNode, ← htext] at hnode
        cases hread : Literal.unquote token.text <;> rw [hread] at hnode <;> cases hnode
        rfl
      · intro fault hnode
        rw [Grammar.stringNode, ← htext] at hnode
        cases hread : Literal.unquote token.text <;> rw [hread] at hnode <;> cases hnode
        exact ⟨_, rfl⟩
  | int =>
      apply simulates_atom haligned
      · intro value hnode
        rw [Grammar.intNode, ← htext] at hnode
        cases hread : readInt64? token.text <;> rw [hread] at hnode <;> cases hnode
        rfl
      · intro fault hnode
        rw [Grammar.intNode, ← htext] at hnode
        cases hread : readInt64? token.text <;> rw [hread] at hnode <;> cases hnode
        exact ⟨_, rfl⟩
  | dot => exact absurd hkind hdot
  | symbol =>
      apply simulates_atom haligned
      · intro value hnode
        rw [Grammar.symbolNode, ← htext] at hnode
        cases hnode
        rfl
      · intro fault hnode
        cases hnode

theorem simulates_step_close {limit : Int} {forms : List OpenForm} {waiting : List Open}
    {token : Token} (haligned : Aligned forms waiting) (hkind : token.kind = .closeParen) :
    Simulates (Nest.step limit ⟨forms.length, forms⟩ token)
      (Grammar.take waiting .closeParen) := by
  cases haligned with
  | top =>
      simp only [Nest.step, Nest.expression, hkind]
      trivial
  | quote houter =>
      simp only [Nest.step, Nest.expression, hkind]
      trivial
  | items houter =>
      simp only [Nest.step, hkind, List.length_cons, Nat.add_sub_cancel]
      exact simulates_supply houter _
  | tail houter hdone =>
      simp only [Nest.step, hkind]
      trivial

theorem simulates_step_dot {limit : Int} {forms : List OpenForm} {waiting : List Open}
    {token : Token} (haligned : Aligned forms waiting) (hkind : token.kind = .dot) :
    Simulates (Nest.step limit ⟨forms.length, forms⟩ token) (Grammar.take waiting .dot) := by
  cases haligned with
  | top =>
      simp only [Nest.step, Nest.expression, hkind]
      trivial
  | quote houter =>
      simp only [Nest.step, Nest.expression, hkind]
      trivial
  | items houter =>
      simp only [Nest.step, hkind, List.isEmpty_iff]
      split_ifs with hdone
      · exact .tainted (.here (.inr ⟨rfl, .inl hdone⟩))
      · exact ⟨rfl, .aligned (.tail houter hdone)⟩
  | tail houter hdone =>
      simp only [Nest.step, Nest.expression, hkind]
      trivial

/-- One step where an expression is expected. -/
theorem simulates_step {limit : Int} {forms : List OpenForm} {waiting : List Open}
    {c : Char} {behind taken rest : List Glyph} {token : Token}
    (haligned : Aligned forms waiting)
    (hstarts : Lexer.Starts c behind token.kind taken rest)
    (htext : token.text = glyphBytes taken) (hcomment : token.kind ≠ .comment)
    (hadmits : token.kind = .quote ∨ token.kind = .openParen → Admits limit forms.length) :
    Simulates (Nest.step limit ⟨forms.length, forms⟩ token)
      (Grammar.take waiting (Grammar.partOf token.kind taken)) := by
  by_cases hclose : token.kind = .closeParen
  · rw [hclose]
    exact simulates_step_close haligned hclose
  · by_cases hdot : token.kind = .dot
    · rw [hdot]
      exact simulates_step_dot haligned hdot
    · rw [Nest.step_eq_expression haligned.expects hclose hdot]
      exact simulates_expression haligned hstarts htext hcomment hdot hclose hadmits

/-- The end of a list that has its tail. -/
theorem simulates_step_tail {limit : Int} {forms : List OpenForm} {waiting : List Open}
    {opener token : Token} {done : List Value} {tail : Value}
    (houter : Aligned forms waiting) (hdone : done ≠ []) (hkind : token.kind = .closeParen) :
    Simulates (Nest.step limit ⟨forms.length + 1, .close opener done tail :: forms⟩ token)
      (Grammar.take (.list ⟨done, [tail], true, none⟩ :: waiting) .closeParen) := by
  simp only [Nest.step, hkind, Nat.add_sub_cancel]
  cases done with
  | nil => exact absurd rfl hdone
  | cons item done => exact simulates_supply houter _

/-! ### One expression -/

/-- Whether a glyph opens a list or quote where it stands outside of literals and
comments. -/
def Glyph.opensForm (glyph : Glyph) : Bool :=
  glyph.isChar '(' || glyph.isChar '\''

/-- Enough room for the forms that are open and for all that a text may still open. -/
def Roomy (limit : Int) (depth : Nat) (text : List Glyph) : Prop :=
  0 < limit → (depth + text.countP Glyph.opensForm : Int) ≤ limit

/-- The quote or parenthesis that opens a form is one of the glyphs that may do so. -/
theorem countP_opensForm_lt {text taken rest : List Glyph} {kind : Token.Kind}
    (hlexeme : Lexer.lexeme text = .token kind taken rest)
    (hkind : kind = .quote ∨ kind = .openParen) :
    rest.countP Glyph.opensForm < text.countP Glyph.opensForm := by
  obtain ⟨c, behind, hdrop, hstarts⟩ := Lexer.starts_of_lexeme hlexeme
  have hle := (List.dropWhile_suffix (l := text) (Glyph.satisfies isBlank)).sublist.countP_le
    (p := Glyph.opensForm)
  rw [hdrop] at hle
  have hopens : Glyph.opensForm (.char c) = true ∧ rest = behind := by
    rcases hkind with rfl | rfl
    · cases hstarts with
      | quote hc => exact ⟨by rw [hc]; rfl, rfl⟩
    · cases hstarts with
      | openParen hc => exact ⟨by rw [hc]; rfl, rfl⟩
  obtain ⟨hchar, rfl⟩ := hopens
  rw [List.countP_cons_of_pos hchar] at hle
  omega

theorem countP_opensForm_le {text rest : List Glyph} (hsuffix : rest <:+ text) :
    rest.countP Glyph.opensForm ≤ text.countP Glyph.opensForm :=
  hsuffix.sublist.countP_le

namespace Nest

theorem depth_supply_le {depth : Nat} {forms : List OpenForm} {value : Value} {after : Nest}
    (hsupply : supply depth forms value = .more after) :
    after.depth ≤ depth ∧ after.forms ≠ [] := by
  induction forms generalizing depth value with
  | nil => cases hsupply
  | cons form outer ih =>
      cases form with
      | quote =>
          obtain ⟨hdepth, hforms⟩ := ih hsupply
          exact ⟨by omega, hforms⟩
      | items opener done =>
          cases hsupply
          exact ⟨Nat.le_refl _, by simp⟩
      | tail opener done =>
          cases hsupply
          exact ⟨Nat.le_refl _, by simp⟩
      | close opener done tail =>
          cases hsupply
          exact ⟨Nat.le_refl _, by simp⟩

theorem depth_enter_le {limit : Int} {nest after : Nest} {form : OpenForm} {token : Token}
    (henter : nest.enter limit form token = .more after) :
    after.depth = nest.depth + 1 ∧ after.forms ≠ [] := by
  rw [enter] at henter
  split_ifs at henter
  cases henter
  exact ⟨rfl, by simp⟩

theorem depth_expression_le {limit : Int} {nest after : Nest} {token : Token}
    (hcomment : token.kind ≠ .comment)
    (hexpression : nest.expression limit token = .more after) :
    after.depth ≤ nest.depth + (if token.kind = .quote ∨ token.kind = .openParen then 1 else 0) ∧
      after.forms ≠ [] := by
  rw [expression] at hexpression
  split at hexpression
  · next hkind => exact absurd hkind hcomment
  · split at hexpression
    · obtain ⟨hdepth, hforms⟩ := depth_supply_le hexpression
      exact ⟨by omega, hforms⟩
    · cases hexpression
  · split at hexpression
    · obtain ⟨hdepth, hforms⟩ := depth_supply_le hexpression
      exact ⟨by omega, hforms⟩
    · cases hexpression
  · obtain ⟨hdepth, hforms⟩ := depth_supply_le hexpression
    exact ⟨by omega, hforms⟩
  · next hkind =>
      obtain ⟨hdepth, hforms⟩ := depth_enter_le hexpression
      exact ⟨by simp [hkind, hdepth], hforms⟩
  · next hkind =>
      obtain ⟨hdepth, hforms⟩ := depth_enter_le hexpression
      exact ⟨by simp [hkind, hdepth], hforms⟩
  · cases hexpression
  · cases hexpression

/-- A token that is no comment leaves some form open if it does not end the expression,
and it opens at most one. -/
theorem depth_step_le {limit : Int} {nest after : Nest} {token : Token}
    (hcomment : token.kind ≠ .comment) (hstep : nest.step limit token = .more after) :
    after.depth ≤ nest.depth + (if token.kind = .quote ∨ token.kind = .openParen then 1 else 0) ∧
      after.forms ≠ [] := by
  rw [step] at hstep
  split at hstep
  · obtain ⟨hdepth, hforms⟩ := depth_supply_le hstep
    exact ⟨by omega, hforms⟩
  · split_ifs at hstep
    cases hstep
    exact ⟨by simp, by simp⟩
  · cases hstep
  · obtain ⟨hdepth, hforms⟩ := depth_supply_le hstep
    exact ⟨by omega, hforms⟩
  · next hkind => exact absurd hkind hcomment
  · cases hstep
  · exact depth_expression_le hcomment hstep

end Nest

/-- There is room for the form that a token opens. -/
theorem Roomy.admits {limit : Int} {depth : Nat} {text taken rest : List Glyph}
    {kind : Token.Kind} (hroomy : Roomy limit depth text)
    (hlexeme : Lexer.lexeme text = .token kind taken rest)
    (hkind : kind = .quote ∨ kind = .openParen) : Admits limit depth := by
  intro hpos
  have hroom := hroomy hpos
  have hlt := countP_opensForm_lt hlexeme hkind
  omega

theorem Roomy.of_suffix {limit : Int} {depth : Nat} {text rest : List Glyph}
    (hroomy : Roomy limit depth text) (hsuffix : rest <:+ text) : Roomy limit depth rest := by
  intro hpos
  have hroom := hroomy hpos
  have hle := countP_opensForm_le hsuffix
  omega

/-- There is room behind a token if there was before it. -/
theorem Roomy.step {limit : Int} {nest after : Nest} {text taken rest : List Glyph}
    {token : Token} (hroomy : Roomy limit nest.depth text)
    (hlexeme : Lexer.lexeme text = .token token.kind taken rest)
    (hcomment : token.kind ≠ .comment) (hstep : nest.step limit token = .more after) :
    Roomy limit after.depth rest := by
  intro hpos
  have hroom := hroomy hpos
  have hdepth := (Nest.depth_step_le hcomment hstep).1
  have hle := countP_opensForm_le (Lexer.lexeme_suffix hlexeme).1
  split_ifs at hdepth with hkind
  · have hlt := countP_opensForm_lt hlexeme hkind
    omega
  · omega

/-- How the readers come out of one expression: with the same value, at the same place
of the text, or both without one.  Where the token reader wants more text, the grammar
matches nothing. -/
inductive SameExpression (text : List Glyph) (fault : Option Lexer.Fault) :
    Except ReadError Value × TokenReader → Option (Grammar.Node × List Glyph) → Prop
  | value {value : Value} {after : TokenReader} {rest : List Glyph}
      (hcuts : Lexer.Cuts rest after.ahead fault) (hsuffix : rest <:+ text)
      (hlength : rest.length < text.length) :
      SameExpression text fault (.ok value, after) (some (.ok value, rest))
  | fault {error : ReadError} {after : TokenReader}
      {result : Option (Grammar.Node × List Glyph)}
      (hfault : ∀ node rest, result = some (node, rest) → ∃ fault, node = .error fault)
      (hincomplete : error.fault.isIncomplete = true → result = none) :
      SameExpression text fault (.error error, after) result

theorem SameExpression.of_suffix {text rest : List Glyph} {fault : Option Lexer.Fault}
    {answer : Except ReadError Value × TokenReader}
    {result : Option (Grammar.Node × List Glyph)} (hsuffix : rest <:+ text)
    (hsame : SameExpression rest fault answer result) :
    SameExpression text fault answer result := by
  cases hsame with
  | value hcuts hsuffix' hlength =>
      exact .value hcuts (hsuffix'.trans hsuffix)
        (Nat.lt_of_lt_of_le hlength hsuffix.length_le)
  | fault hfault hincomplete => exact .fault hfault hincomplete

/-- A fault that more text does not remove. -/
theorem SameExpression.of_definite {text : List Glyph} {fault : Option Lexer.Fault}
    {error : ReadError} {after : TokenReader} {result : Option (Grammar.Node × List Glyph)}
    (hdefinite : error.fault.isIncomplete = false)
    (hfault : ∀ node rest, result = some (node, rest) → ∃ fault, node = .error fault) :
    SameExpression text fault (.error error, after) result := by
  refine .fault hfault fun hincomplete => ?_
  rw [hdefinite] at hincomplete
  cases hincomplete

theorem Grammar.matchOver_congr {fuel : Nat} {waiting : List Open} {text rest : List Glyph}
    (hgaps : skipGaps text = skipGaps rest) :
    matchOver fuel waiting text = matchOver fuel waiting rest := by
  cases fuel with
  | zero => rfl
  | succ fuel => simp only [matchOver, hgaps]

/-- One step of both readers, and then the rest of the expression. -/
theorem sameExpression_step (reader : TokenReader) {text rest : List Glyph}
    {token : Token} {tokens : List Token} {fault : Option Lexer.Fault} {nest : Nest}
    {waiting : List Open} {part : Grammar.Part} {fuel : Nat}
    (hcuts : Lexer.Cuts rest tokens fault) (hsuffix : rest <:+ text)
    (hlength : rest.length < text.length)
    (hpart : (if Grammar.afterTail waiting then Grammar.partAfterTail? (Grammar.skipGaps text)
      else Grammar.part? (Grammar.skipGaps text)) = some (part, rest))
    (hsimulates : Simulates (nest.step reader.limit token) (Grammar.take waiting part))
    (hmore : ∀ forms waiting', nest.step reader.limit token = .more ⟨forms.length, forms⟩ →
      Matched forms waiting' →
      SameExpression rest fault (reader.readOver tokens ⟨forms.length, forms⟩)
        (Grammar.matchOver fuel waiting' rest)) :
    SameExpression text fault (reader.readOver (token :: tokens) nest)
      (Grammar.matchOver (fuel + 1) waiting text) := by
  rw [TokenReader.readOver, Grammar.matchOver]
  simp only [hpart]
  cases hstep : nest.step reader.limit token with
  | more after =>
      rw [hstep] at hsimulates
      cases htake : Grammar.take waiting part with
      | none => simp [htake, Simulates] at hsimulates
      | some progress =>
          cases progress with
          | done node => simp [htake, Simulates] at hsimulates
          | more waiting' =>
              rw [htake] at hsimulates
              obtain ⟨hdepth, hmatched⟩ := hsimulates
              obtain ⟨depth, forms⟩ := after
              simp only at hdepth hmatched
              subst hdepth
              exact (hmore forms waiting' hstep hmatched).of_suffix hsuffix
  | done value =>
      rw [hstep] at hsimulates
      cases htake : Grammar.take waiting part with
      | none => simp [htake, Simulates] at hsimulates
      | some progress =>
          cases progress with
          | more waiting' => simp [htake, Simulates] at hsimulates
          | done node =>
              rw [htake] at hsimulates
              cases hsimulates
              exact .value hcuts hsuffix hlength
  | fault error =>
      refine .of_definite (Nest.step_fault hstep) fun node rest' hmatch => ?_
      rw [hstep] at hsimulates
      cases htake : Grammar.take waiting part with
      | none => simp [htake] at hmatch
      | some progress =>
          rw [htake] at hsimulates hmatch
          cases progress with
          | done node' =>
              cases hmatch
              exact hsimulates
          | more waiting' => exact Grammar.matchOver_doomed hsimulates hmatch

/-- Behind its tail a list takes nothing but its end. -/
theorem Nest.step_close_fault (limit : Int) {nest : Nest} {opener token : Token}
    {done : List Value} {tail : Value} {outer : List OpenForm}
    (hforms : nest.forms = .close opener done tail :: outer)
    (hcomment : token.kind ≠ .comment) (hclose : token.kind ≠ .closeParen) :
    ∃ error, nest.step limit token = .fault error := by
  cases hkind : token.kind <;> simp_all [step]

/-- Where the token reader finds something else behind a tail, the grammar finds nothing
or another tail. -/
theorem Grammar.matchOver_tail {list : OpenList} {waiting : List Open}
    {text behind rest : List Glyph} {part : Part} {fuel : Nat} {node : Node}
    (hdotted : list.dotted = true) (htails : list.tails ≠ [])
    (hpart : part? (skipGaps text) = some (part, behind)) (hclose : part ≠ .closeParen)
    (hmatch : matchOver (fuel + 1) (.list list :: waiting) text = some (node, rest)) :
    ∃ fault, node = .error fault := by
  have hafter : afterTail (.list list :: waiting) = true := hdotted
  rw [matchOver] at hmatch
  simp only [hafter, ↓reduceIte] at hmatch
  rcases partAfterTail?_other hpart hclose with hnone | ⟨behind', hdot⟩
  · simp [hnone] at hmatch
  · have hdoomed : Doomed (.tail { list with dotted := true } :: waiting) :=
      .tainted (.here (.inr ⟨rfl, .inr htails⟩))
    simp only [hdot, take] at hmatch
    exact matchOver_doomed hdoomed hmatch

theorem Grammar.partOf_ne_closeParen {kind : Token.Kind} {taken : List Glyph}
    (hkind : kind ≠ .closeParen) : partOf kind taken ≠ .closeParen := by
  cases kind <;> simp_all [partOf]

/-- Without a part at the beginning of the text nothing matches. -/
theorem Grammar.matchOver_eq_none (waiting : List Open) {fuel : Nat} {text : List Glyph}
    (hpart : part? (skipGaps text) = none) (htail : partAfterTail? (skipGaps text) = none) :
    matchOver fuel waiting text = none := by
  cases fuel with
  | zero => rfl
  | succ fuel => cases hafter : afterTail waiting <;> simp [matchOver, hafter, hpart, htail]

/-- Both walks along a plain text come out of an expression alike. -/
theorem sameExpression_readOver (reader : TokenReader) {text : List Glyph}
    {tokens : List Token} {fault : Option Lexer.Fault} (hcuts : Lexer.Cuts text tokens fault)
    {forms : List OpenForm} {waiting : List Open} {fuel : Nat} (hplain : Plain text)
    (hmatched : Matched forms waiting) (hroomy : Roomy reader.limit forms.length text)
    (hfuel : text.length < fuel) :
    SameExpression text fault (reader.readOver tokens ⟨forms.length, forms⟩)
      (Grammar.matchOver fuel waiting text) := by
  induction hcuts generalizing forms waiting fuel with
  | @ended text hlexeme =>
      have hskip := Grammar.skipGaps_ended hplain hlexeme
      rw [Grammar.matchOver_eq_none waiting (by rw [hskip]; rfl) (by rw [hskip]; rfl)]
      exact .fault (by simp) fun _ => rfl
  | @stopped text fault hlexeme =>
      obtain ⟨behind, hskip, hpart⟩ := Grammar.skipGaps_stopped hplain hlexeme
      rw [Grammar.matchOver_eq_none waiting (by rw [hskip, hpart]) (by rw [hskip]; rfl)]
      exact .fault (by simp) fun _ => rfl
  | @token text taken rest token tokens fault hlexeme htext hrest ih =>
      obtain ⟨hsuffix, hlength⟩ := Lexer.lexeme_suffix hlexeme
      have hplain' := hplain.of_suffix hsuffix
      by_cases hcomment : token.kind = .comment
      -- A comment is a token for one reader and part of a gap for the other.
      · have hgaps := Grammar.skipGaps_comment hplain (hcomment ▸ hlexeme)
        rw [TokenReader.readOver, Nest.step_comment hcomment, Grammar.matchOver_congr hgaps]
        exact (ih hplain' hmatched (hroomy.of_suffix hsuffix) (by omega)).of_suffix hsuffix
      · obtain ⟨c, behind, hskip, hpart, hstarts⟩ :=
          Grammar.skipGaps_lexeme hplain hlexeme hcomment
        rw [← hskip] at hpart
        obtain ⟨fuel, rfl⟩ : ∃ fuel', fuel = fuel' + 1 := ⟨fuel - 1, by omega⟩
        have hmore : ∀ forms' waiting',
            Nest.step reader.limit ⟨forms.length, forms⟩ token =
              .more ⟨forms'.length, forms'⟩ → Matched forms' waiting' →
            SameExpression rest fault (reader.readOver tokens ⟨forms'.length, forms'⟩)
              (Grammar.matchOver fuel waiting' rest) :=
          fun forms' waiting' hstep hmatched' =>
            ih hplain' hmatched' (Roomy.step hroomy hlexeme hcomment hstep) (by omega)
        cases hmatched with
        | aligned haligned =>
            refine sameExpression_step reader hrest hsuffix hlength ?_
              (simulates_step haligned hstarts htext hcomment (hroomy.admits hlexeme)) hmore
            rw [haligned.afterTail]
            exact hpart
        | @close forms waiting opener done tail houter hdone =>
            by_cases hclose : token.kind = .closeParen
            · rw [hclose] at hpart
              exact sameExpression_step reader hrest hsuffix hlength
                (Grammar.partAfterTail?_close hpart)
                (simulates_step_tail houter hdone hclose) hmore
            · obtain ⟨error, hstep⟩ : ∃ error, Nest.step reader.limit
                  ⟨forms.length + 1, .close opener done tail :: forms⟩ token = .fault error :=
                Nest.step_close_fault reader.limit rfl hcomment hclose
              rw [TokenReader.readOver]
              simp only [List.length_cons, hstep]
              exact .of_definite (Nest.step_fault hstep) fun node rest' hmatch =>
                Grammar.matchOver_tail rfl (by simp) hpart
                  (Grammar.partOf_ne_closeParen hclose) hmatch

end MiniLisp
