import Mathlib.Data.List.Forall2
import Mathlib.Data.List.TakeWhile
import MiniLisp.Proofs.Literals
import MiniLisp.Proofs.WalkFrame

/-!
What a text leaves open.  A walk that stops at the end of a text has come to a comment, to
a string literal or to a gap.  Then what more text leads to depends on nothing but the open
parts, and not on the values in them.
-/

namespace MiniLisp

namespace Grammar

/-! ### Faults of expressions -/

/-- A fault that no more text removes, if it is one. -/
def Definite (node : Node) : Prop :=
  ∀ fault, node = .error fault → fault.isIncomplete = false

/-- No fault in an open part is for want of more text. -/
def Open.Definite : Open → Prop
  | .quote => True
  | .list opened => ∀ fault, opened.fault = some fault → fault.isIncomplete = false
  | .tail opened => ∀ fault, opened.fault = some fault → fault.isIncomplete = false

theorem definite_atom {text rest : List Glyph} {node : Node}
    (hpart : part? text = some (.atom node, rest)) : Definite node := by
  have hint : ∀ digits, Definite (intNode digits) := by
    intro digits fault hfault
    rw [intNode] at hfault
    split at hfault <;> cases hfault
    rfl
  have hstring : ∀ literal, Definite (stringNode literal) := by
    intro literal fault hfault
    rw [stringNode] at hfault
    split at hfault <;> cases hfault
    rfl
  have hsymbol : ∀ name, Definite (symbolNode name) := by
    intro name fault hfault
    cases hfault
  cases text with
  | nil => cases hpart
  | cons first behind =>
      rw [part?] at hpart
      split_ifs at hpart
      · cases hpart
      · cases hpart
      · cases hpart
      · obtain ⟨⟨literal, rest'⟩, _, hfound⟩ := Option.map_eq_some_iff.mp hpart
        cases hfound
        exact hstring literal
      · cases hpart
        exact hint _
      · cases hpart
        exact hsymbol _
      · cases hpart
      · cases hpart
        exact hsymbol _

theorem definite_close {list : OpenList} (hlist : (Open.list list).Definite) :
    Definite list.close := by
  intro fault hfault
  rw [OpenList.close] at hfault
  split at hfault
  · next hsome =>
      cases hfault
      exact hlist _ hsome
  all_goals
    cases hfault
    try rfl

theorem definite_note {list : OpenList} (hlist : (Open.list list).Definite)
    {fault : ReadFault} (hfault : fault.isIncomplete = false) :
    (Open.list (list.note fault)).Definite := by
  intro fault' hsome
  cases hold : list.fault with
  | some old =>
      simp only [OpenList.note, hold, Option.some_or, Option.some.injEq] at hsome
      rw [← hsome]
      exact hlist old hold
  | none =>
      simp only [OpenList.note, hold, Option.none_or, Option.some.injEq] at hsome
      rw [← hsome]
      exact hfault

/-- Where parts without such a fault lead. -/
def Progress.Definite : Progress → Prop
  | .more waiting => ∀ part ∈ waiting, part.Definite
  | .done node => Grammar.Definite node

theorem definite_supply {waiting : List Open} {node : Node}
    (hwaiting : ∀ part ∈ waiting, part.Definite) (hnode : Definite node) :
    (supply waiting node).Definite := by
  induction waiting generalizing node with
  | nil => exact hnode
  | cons first outer ih =>
      rw [List.forall_mem_cons] at hwaiting
      obtain ⟨hfirst, houter⟩ := hwaiting
      cases first with
      | quote =>
          refine ih houter ?_
          intro fault hfault
          cases node with
          | ok value => cases hfault
          | error fault' =>
              cases hfault
              exact hnode _ rfl
      | list list =>
          refine List.forall_mem_cons.mpr ⟨?_, houter⟩
          cases node with
          | ok value => exact hfirst
          | error fault => exact definite_note hfirst (hnode fault rfl)
      | tail list =>
          refine List.forall_mem_cons.mpr ⟨?_, houter⟩
          cases node with
          | ok value => exact hfirst
          | error fault => exact definite_note hfirst (hnode fault rfl)

theorem definite_take {waiting : List Open} {part : Part} {progress : Progress}
    (hwaiting : ∀ part ∈ waiting, part.Definite)
    (hpart : ∀ node, part = .atom node → Definite node)
    (htake : take waiting part = some progress) : progress.Definite := by
  cases part with
  | openParen =>
      cases waiting <;> cases htake <;>
        exact List.forall_mem_cons.mpr ⟨by simp [Open.Definite, OpenList.new], hwaiting⟩
  | quote =>
      cases waiting <;> cases htake <;>
        exact List.forall_mem_cons.mpr ⟨trivial, hwaiting⟩
  | atom node =>
      rw [take_atom] at htake
      cases htake
      exact definite_supply hwaiting (hpart node rfl)
  | closeParen =>
      rcases waiting with _ | ⟨_ | list | _, outer⟩ <;> cases htake
      rw [List.forall_mem_cons] at hwaiting
      exact definite_supply hwaiting.2 (definite_close hwaiting.1)
  | dot =>
      rcases waiting with _ | ⟨_ | list | _, outer⟩ <;> cases htake
      rw [List.forall_mem_cons] at hwaiting
      exact List.forall_mem_cons.mpr ⟨hwaiting.1, hwaiting.2⟩

/-- No fault of an expression is for want of more text. -/
theorem definite_walk {waiting : List Open} {text rest : List Glyph} {node : Node}
    (hwaiting : ∀ part ∈ waiting, part.Definite)
    (hwalk : walk waiting text = some (node, rest)) : Definite node := by
  rw [walk_eq] at hwalk
  obtain ⟨⟨part, behind⟩, hpart, hwalk⟩ := Option.bind_eq_some_iff.mp hwalk
  obtain ⟨progress, htake, hresume⟩ := Option.bind_eq_some_iff.mp hwalk
  have hshorter := length_nextPart? hpart
  have hatom : ∀ node, part = .atom node → Definite node := by
    rintro node rfl
    rw [nextPart?] at hpart
    split_ifs at hpart
    · rw [partAfterTail?_skipGaps] at hpart
      split at hpart
      · cases hpart
      · obtain ⟨_, _, hfound⟩ := Option.map_eq_some_iff.mp hpart
        cases hfound
    · exact definite_atom hpart
  have hprogress := definite_take hwaiting hatom htake
  cases progress with
  | done node =>
      cases hresume
      exact hprogress
  | more waiting' => exact definite_walk hprogress hresume
termination_by text.length

/-! ### Open parts with other values -/

/-- Nodes with a value each, or with the same fault. -/
inductive SimilarNode : Node → Node → Prop
  | ok (value value' : Value) : SimilarNode (.ok value) (.ok value')
  | error (fault : ReadFault) : SimilarNode (.error fault) (.error fault)

/-- Lists with as many items and tails, and with the same fault. -/
structure OpenList.Similar (opened opened' : OpenList) : Prop where
  items : opened.items.length = opened'.items.length
  tails : opened.tails.length = opened'.tails.length
  dotted : opened.dotted = opened'.dotted
  fault : opened.fault = opened'.fault

/-- Open parts that differ in nothing but values. -/
inductive Open.Similar : Open → Open → Prop
  | quote : Similar .quote .quote
  | list {opened opened' : OpenList} (hsimilar : opened.Similar opened') :
      Similar (.list opened) (.list opened')
  | tail {opened opened' : OpenList} (hsimilar : opened.Similar opened') :
      Similar (.tail opened) (.tail opened')

theorem similar_refl (waiting : List Open) : List.Forall₂ Open.Similar waiting waiting := by
  induction waiting with
  | nil => exact .nil
  | cons first outer ih =>
      refine .cons ?_ ih
      cases first with
      | quote => exact .quote
      | list opened => exact .list ⟨rfl, rfl, rfl, rfl⟩
      | tail opened => exact .tail ⟨rfl, rfl, rfl, rfl⟩

/-- The same progress with other values. -/
inductive Progress.Similar : Progress → Progress → Prop
  | more {waiting waiting' : List Open} (hsimilar : List.Forall₂ Open.Similar waiting waiting') :
      Similar (.more waiting) (.more waiting')
  | done {node node' : Node} (hsimilar : SimilarNode node node') :
      Similar (.done node) (.done node')

theorem similar_close {opened opened' : OpenList} (hsimilar : opened.Similar opened') :
    SimilarNode opened.close opened'.close := by
  obtain ⟨items, tails, dotted, fault⟩ := opened
  obtain ⟨items', tails', dotted', fault'⟩ := opened'
  obtain ⟨hitems, htails, hdotted, hfault⟩ := hsimilar
  dsimp only at hitems htails hdotted hfault
  subst hfault
  cases fault with
  | some fault => exact .error fault
  | none =>
      rcases tails with _ | ⟨tail, _ | ⟨second, tails⟩⟩ <;>
        rcases tails' with _ | ⟨tail', _ | ⟨second', tails'⟩⟩ <;>
        simp only [List.length_cons, List.length_nil] at htails
      all_goals first | omega | skip
      · exact .ok _ _
      · rcases items with _ | ⟨item, items⟩ <;> rcases items' with _ | ⟨item', items'⟩ <;>
          simp only [List.length_cons, List.length_nil] at hitems
        all_goals first | omega | skip
        · exact .error _
        · exact .ok _ _
      · rcases items with _ | ⟨item, items⟩ <;> rcases items' with _ | ⟨item', items'⟩ <;>
          simp only [List.length_cons, List.length_nil] at hitems
        all_goals first | omega | skip
        · exact .error _
        · exact .error _

theorem OpenList.Similar.addItem {opened opened' : OpenList} {node node' : Node}
    (hsimilar : opened.Similar opened') (hnode : SimilarNode node node') :
    (opened.addItem node).Similar (opened'.addItem node') := by
  obtain ⟨hitems, htails, hdotted, hfault⟩ := hsimilar
  cases hnode with
  | ok value value' => exact ⟨congrArg (· + 1) hitems, htails, hdotted, hfault⟩
  | error fault => exact ⟨hitems, htails, hdotted, congrArg (·.or (some fault)) hfault⟩

theorem OpenList.Similar.addTail {opened opened' : OpenList} {node node' : Node}
    (hsimilar : opened.Similar opened') (hnode : SimilarNode node node') :
    (opened.addTail node).Similar (opened'.addTail node') := by
  obtain ⟨hitems, htails, hdotted, hfault⟩ := hsimilar
  cases hnode with
  | ok value value' => exact ⟨hitems, congrArg (· + 1) htails, hdotted, hfault⟩
  | error fault => exact ⟨hitems, htails, hdotted, congrArg (·.or (some fault)) hfault⟩

theorem similar_supply {waiting waiting' : List Open} {node node' : Node}
    (hsimilar : List.Forall₂ Open.Similar waiting waiting') (hnode : SimilarNode node node') :
    (supply waiting node).Similar (supply waiting' node') := by
  induction hsimilar generalizing node node' with
  | nil => exact .done hnode
  | cons hfirst houter ih =>
      cases hfirst with
      | quote =>
          refine ih ?_
          cases hnode with
          | ok value value' => exact .ok _ _
          | error fault => exact .error fault
      | list hlist => exact .more (.cons (.list (hlist.addItem hnode)) houter)
      | tail hlist => exact .more (.cons (.list (hlist.addTail hnode)) houter)

theorem similar_take {waiting waiting' : List Open} {part : Part} {progress : Progress}
    (hsimilar : List.Forall₂ Open.Similar waiting waiting')
    (htake : take waiting part = some progress) :
    ∃ progress', take waiting' part = some progress' ∧ progress.Similar progress' := by
  have hnew : (Open.list .new).Similar (.list .new) := .list ⟨rfl, rfl, rfl, rfl⟩
  cases part with
  | openParen =>
      obtain rfl : progress = .more (.list .new :: waiting) := by
        cases waiting <;> cases htake <;> rfl
      exact ⟨.more (.list .new :: waiting'), by cases waiting' <;> rfl,
        .more (.cons hnew hsimilar)⟩
  | quote =>
      obtain rfl : progress = .more (.quote :: waiting) := by
        cases waiting <;> cases htake <;> rfl
      exact ⟨.more (.quote :: waiting'), by cases waiting' <;> rfl,
        .more (.cons .quote hsimilar)⟩
  | atom node =>
      rw [take_atom] at htake ⊢
      cases htake
      refine ⟨_, rfl, similar_supply hsimilar ?_⟩
      cases node with
      | ok value => exact .ok value value
      | error fault => exact .error fault
  | closeParen =>
      cases hsimilar with
      | nil => cases htake
      | cons hfirst houter =>
          cases hfirst with
          | quote => cases htake
          | tail hlist => cases htake
          | list hlist =>
              cases htake
              exact ⟨_, rfl, similar_supply houter (similar_close hlist)⟩
  | dot =>
      cases hsimilar with
      | nil => cases htake
      | cons hfirst houter =>
          cases hfirst with
          | quote => cases htake
          | tail hlist => cases htake
          | list hlist =>
              cases htake
              obtain ⟨hitems, htails, _, hfault⟩ := hlist
              exact ⟨_, rfl, .more (.cons (.tail ⟨hitems, htails, rfl, hfault⟩) houter)⟩

/-- A walk finds an expression no matter what the values in the open parts are. -/
theorem similar_walk {waiting waiting' : List Open} {text rest : List Glyph} {node : Node}
    (hsimilar : List.Forall₂ Open.Similar waiting waiting')
    (hwalk : walk waiting text = some (node, rest)) :
    ∃ node', walk waiting' text = some (node', rest) ∧ SimilarNode node node' := by
  rw [walk_eq] at hwalk ⊢
  obtain ⟨⟨part, behind⟩, hpart, hwalk⟩ := Option.bind_eq_some_iff.mp hwalk
  obtain ⟨progress, htake, hresume⟩ := Option.bind_eq_some_iff.mp hwalk
  have hshorter := length_nextPart? hpart
  have hpart' : nextPart? waiting' text = some (part, behind) := by
    have hafter : afterTail waiting' = afterTail waiting := by
      cases hsimilar with
      | nil => rfl
      | cons hfirst _ =>
          cases hfirst with
          | list hlist => exact hlist.dotted.symm
          | _ => rfl
    rwa [nextPart?, hafter]
  obtain ⟨progress', htake', hprogress⟩ := similar_take hsimilar htake
  rw [hpart']
  simp only [Option.bind_some, htake']
  cases hprogress with
  | done hnode =>
      cases hresume
      exact ⟨_, rfl, hnode⟩
  | more hmore => exact similar_walk hmore hresume
termination_by text.length

/-! ### Where a walk can go on -/

/-- A string literal ends with a quote. -/
theorem stringOver_eq_append {done text literal rest : List Glyph} {escaped : Bool}
    (hstring : stringOver done escaped text = some (literal, rest)) :
    ∃ inside, text = inside ++ .char '"' :: rest := by
  induction text generalizing done escaped with
  | nil => cases escaped <;> cases hstring
  | cons glyph text ih =>
      have hlater : (∃ inside, text = inside ++ .char '"' :: rest) →
          ∃ inside, glyph :: text = inside ++ .char '"' :: rest := by
        rintro ⟨inside, rfl⟩
        exact ⟨glyph :: inside, rfl⟩
      cases escaped with
      | true => exact hlater (ih hstring)
      | false =>
          rw [stringOver] at hstring
          split_ifs at hstring with hquote
          · cases hstring
            exact ⟨[], by rw [Rule.eq_of_isChar hquote]; rfl⟩
          · exact hlater (ih hstring)

theorem getLast?_of_suffix {text rest : List Glyph} (hsuffix : rest <:+ text)
    (hrest : rest ≠ []) : rest.getLast? = text.getLast? := by
  obtain ⟨front, rfl⟩ := hsuffix
  rw [List.getLast?_append_of_ne_nil _ hrest]

/-- A part that ends in a backslash is a symbol, and goes on with a letter. -/
theorem part?_backslash {text : List Glyph} {part : Part}
    (hlast : text.getLast? = some (.char '\\')) (hpart : part? text = some (part, [])) :
    ∃ node node', part = .atom node ∧ ∀ more, Blunt more →
      part? (text ++ .char 'x' :: more) = some (.atom node', more) := by
  cases text with
  | nil => cases hpart
  | cons first behind =>
      have hsingle : behind = [] → first = .char '\\' := by
        rintro rfl
        simpa using hlast
      have hmem : behind ≠ [] → Glyph.char '\\' ∈ behind := by
        intro hbehind
        rw [← getLast?_of_suffix (List.suffix_cons first behind) hbehind] at hlast
        exact List.mem_of_getLast? hlast
      have hdigit : ∀ more, (behind ++ Glyph.char 'x' :: more).head?.any isDigit =
          behind.head?.any isDigit := by
        intro more
        cases behind <;> rfl
      obtain ⟨node', hrun⟩ : ∃ node', behind.dropWhile isSymbolGlyph = [] → ∀ more,
          Blunt more → symbolFrom first (behind ++ .char 'x' :: more) =
            (.atom node', more) := by
        refine ⟨symbolNode (first :: (behind ++ [Glyph.char 'x']).takeWhile isSymbolGlyph), ?_⟩
        intro hall more hblunt
        have hall' : (behind ++ [Glyph.char 'x']).dropWhile isSymbolGlyph = [] := by
          rw [List.dropWhile_append, hall]
          rfl
        obtain ⟨htake, hdrop⟩ := @takeWhile_dropWhile_append _ isSymbolGlyph
          (behind ++ [Glyph.char 'x']) more fun _ => hblunt
        rw [hall'] at hdrop
        rw [List.append_cons, symbolFrom, htake, hdrop]
        rfl
      rw [part?] at hpart
      split_ifs at hpart with hopen hclose hquote hstring hint hdot hnext hsymbol
      · cases hpart
        rw [hsingle rfl] at hopen
        exact absurd hopen (by decide)
      · cases hpart
        rw [hsingle rfl] at hclose
        exact absurd hclose (by decide)
      · cases hpart
        rw [hsingle rfl] at hquote
        exact absurd hquote (by decide)
      · obtain ⟨⟨literal, rest⟩, hliteral, hfound⟩ := Option.map_eq_some_iff.mp hpart
        cases hfound
        obtain ⟨inside, rfl⟩ := stringOver_eq_append hliteral
        rw [← List.cons_append, List.getLast?_concat] at hlast
        exact absurd hlast (by decide)
      · rw [Option.some.injEq, intFrom, Prod.mk.injEq, List.dropWhile_eq_nil_iff] at hpart
        by_cases hbehind : behind = []
        · rw [hsingle hbehind, hbehind] at hint
          exact absurd hint (by decide)
        · exact absurd (hpart.2 _ (hmem hbehind)) (by decide)
      · rw [Option.some.injEq, symbolFrom, Prod.mk.injEq] at hpart
        refine ⟨_, node', hpart.1.symm, fun more hblunt => ?_⟩
        have hnext' : (behind ++ Glyph.char 'x' :: more).head?.any isSymbolGlyph = true := by
          cases behind with
          | nil => rfl
          | cons second behind => exact hnext
        rw [List.cons_append, part?, if_neg hopen, if_neg hclose, if_neg hquote,
          if_neg hstring, hdigit, if_neg hint, if_pos hdot, if_pos hnext',
          hrun hpart.2 more hblunt]
      · cases hpart
        rw [hsingle rfl] at hdot
        exact absurd hdot (by decide)
      · rw [Option.some.injEq, symbolFrom, Prod.mk.injEq] at hpart
        refine ⟨_, node', hpart.1.symm, fun more hblunt => ?_⟩
        rw [List.cons_append, part?, if_neg hopen, if_neg hclose, if_neg hquote,
          if_neg hstring, hdigit, if_neg hint, if_neg hdot, if_pos hsymbol,
          hrun hpart.2 more hblunt]

/-- A text without a part at its beginning, which is not empty, starts with a string literal
that does not end, or has no part at its beginning whatever follows. -/
theorem part?_none {text : List Glyph} (htext : text ≠ []) (hpart : part? text = none) :
    (∃ behind, text = .char '"' :: behind ∧ stringOver [.char '"'] false behind = none) ∨
      ∀ more, part? (text ++ more) = none := by
  cases text with
  | nil => exact absurd rfl htext
  | cons first behind =>
      rw [part?] at hpart
      split_ifs at hpart with hopen hclose hquote hstring hint hdot hnext hsymbol
      · cases Rule.eq_of_isChar hstring
        exact .inl ⟨behind, rfl, Option.map_eq_none_iff.mp hpart⟩
      · have hminus : first.isChar '-' = false := by
          rw [Bool.eq_false_iff]
          intro hchar
          rw [Rule.eq_of_isChar hchar] at hsymbol
          exact hsymbol rfl
        have hdigit : isDigit first = false := by
          rw [Bool.eq_false_iff]
          exact fun hyes => hsymbol (isSymbolGlyph_of_isDigit hyes)
        refine .inr fun more => ?_
        simp [part?, hopen, hclose, hquote, hstring, hminus, hdigit, hdot, hsymbol]

@[inherit_doc part?_none]
theorem nextPart?_none {waiting : List Open} {text : List Glyph} (hskip : skipGaps text ≠ [])
    (hpart : nextPart? waiting text = none) :
    (∃ behind, skipGaps text = .char '"' :: behind ∧ afterTail waiting = false ∧
        stringOver [.char '"'] false behind = none) ∨
      ∀ more, nextPart? waiting (text ++ more) = none := by
  have hgaps : ∀ more, skipGaps (text ++ more) = skipGaps text ++ more :=
    fun more => skipGapsOver_append hskip more
  simp only [nextPart?, hgaps] at hpart ⊢
  cases hafter : afterTail waiting with
  | true =>
      refine .inr fun more => ?_
      obtain ⟨first, behind, hcons⟩ := List.exists_cons_of_ne_nil hskip
      rw [hafter, if_pos rfl, hcons, partAfterTail?_cons] at hpart
      rw [if_pos rfl, hcons, List.cons_append, partAfterTail?_cons]
      split_ifs at hpart ⊢
      rfl
  | false =>
      rw [hafter, if_neg Bool.false_ne_true] at hpart
      rcases part?_none hskip hpart with ⟨behind, heq, hopen⟩ | hdead
      · exact .inl ⟨behind, heq, rfl, hopen⟩
      · exact .inr fun more => by rw [if_neg Bool.false_ne_true, hdead]

theorem nextPart?_backslash {waiting : List Open} {text : List Glyph} {part : Part}
    (hlast : text.getLast? = some (.char '\\'))
    (hpart : nextPart? waiting text = some (part, [])) :
    ∃ node node', part = .atom node ∧ ∀ more, Blunt more →
      nextPart? waiting (text ++ .char 'x' :: more) = some (.atom node', more) := by
  have hskip : skipGaps text ≠ [] := by
    intro hnil
    rw [nextPart?, hnil] at hpart
    split_ifs at hpart <;> cases hpart
  have hlast' : (skipGaps text).getLast? = some (.char '\\') :=
    (getLast?_of_suffix (skipGapsOver_suffix false text) hskip).trans hlast
  rw [nextPart?] at hpart
  cases hafter : afterTail waiting with
  | true =>
      obtain ⟨first, behind, hcons⟩ := List.exists_cons_of_ne_nil hskip
      rw [hafter, if_pos rfl, hcons, partAfterTail?_cons] at hpart
      rw [hcons] at hlast'
      split_ifs at hpart with hclose hdot
      · cases hpart
        cases hlast'
        exact absurd hclose (by decide)
      · cases hpart
        cases hlast'
        exact absurd hdot (by decide)
  | false =>
      rw [hafter, if_neg Bool.false_ne_true] at hpart
      obtain ⟨node, node', hatom, hlonger⟩ := part?_backslash hlast' hpart
      refine ⟨node, node', hatom, fun more hblunt => ?_⟩
      rw [nextPart?, hafter, if_neg Bool.false_ne_true, skipGaps, skipGapsOver_append hskip]
      exact hlonger more hblunt

/-- A quote that opens a literal without an end leads nowhere. -/
theorem walk_quote {behind : List Glyph} (hopen : stringOver [.char '"'] false behind = none)
    (waiting : List Open) : walk waiting (.char '"' :: behind) = none := by
  rw [walk_eq, nextPart?]
  have hskip : skipGaps (.char '"' :: behind) = .char '"' :: behind := rfl
  have hpart : part? (.char '"' :: behind) = none := by
    change (stringOver [.char '"'] false behind).map _ = none
    rw [hopen]
    rfl
  rw [hskip, hpart]
  split_ifs <;> rfl

/-- Whether more is wanting does not depend on the node that is supplied. -/
theorem supply_eq_more {waiting waiting' : List Open} {node : Node}
    (hsupply : supply waiting node = .more waiting') (node' : Node) :
    ∃ waiting'', supply waiting node' = .more waiting'' := by
  induction waiting generalizing node node' with
  | nil => cases hsupply
  | cons first outer ih =>
      cases first with
      | quote => exact ih hsupply _
      | list opened => exact ⟨_, rfl⟩
      | tail opened => exact ⟨_, rfl⟩

/-- The end of a text inside of a comment or of a string literal. -/
inductive OpenEnd (waiting : List Open) : List Glyph → Prop
  | comment {text : List Glyph}
      (hcomment : ∀ more, skipGaps (text ++ more) = skipGapsOver true more) :
      OpenEnd waiting text
  | literal {behind : List Glyph} (hafter : afterTail waiting = false)
      (hopen : stringOver [.char '"'] false behind = none) :
      OpenEnd waiting (.char '"' :: behind)

/-- If a quote completes a text that is no expression, then the text ends inside of a
comment or of a literal.  It may take a letter before the quote to use up a backslash at the
end. -/
theorem openEnd_of_quote {waiting : List Open} {text extra behind : List Glyph}
    (hnone : walk waiting text = none)
    (hextra : extra = [] ∨ extra = [.char 'x'] ∧ text.getLast? = some (.char '\\'))
    (hopen : stringOver [.char '"'] false behind = none)
    (hsome : walk waiting (text ++ (extra ++ .char '"' :: behind)) ≠ none) :
    ∃ waiting' rest, OpenEnd waiting' rest ∧ rest <:+ text ∧
      ∀ more, walk waiting (text ++ more) = walk waiting' (rest ++ more) := by
  have hblunt : Blunt (.char '"' :: behind) := rfl
  by_cases hskip : skipGaps text = []
  · rcases skipGapsOver_eq_nil hskip with hcomment | ⟨hcode, hgap⟩
    · exact ⟨waiting, text, .comment hcomment, List.suffix_refl _, fun _ => rfl⟩
    · rcases hextra with rfl | ⟨rfl, hlast⟩
      · refine absurd ?_ hsome
        rw [List.nil_append, walk_congr (hcode _), walk_quote hopen]
      · exact absurd (hgap _ hlast) (by decide)
  · have hgaps : ∀ more, skipGaps (text ++ more) = skipGaps text ++ more :=
      fun more => skipGapsOver_append hskip more
    cases hpart : nextPart? waiting text with
    | none =>
        rcases nextPart?_none hskip hpart with ⟨behind', heq, hafter, hopen'⟩ | hdead
        · refine ⟨waiting, _, .literal hafter hopen', heq ▸ skipGapsOver_suffix false text, ?_⟩
          intro more
          refine walk_congr ?_ waiting
          rw [hgaps, heq]
          rfl
        · refine absurd ?_ hsome
          rw [walk_eq, hdead]
          rfl
    | some found =>
        obtain ⟨part, rest⟩ := found
        have hshorter := length_nextPart? hpart
        rw [walk_of_nextPart? hpart] at hnone
        by_cases hrest : rest = []
        · -- The last part ends with the text, and a literal opens behind it.
          subst hrest
          refine absurd ?_ hsome
          rcases hextra with rfl | ⟨rfl, hlast⟩
          · rw [List.nil_append, walk_of_nextPart? (nextPart?_append hpart fun _ => hblunt)]
            cases htake : take waiting part with
            | none => rfl
            | some progress =>
                rw [htake] at hnone
                cases progress with
                | done node => cases hnone
                | more waiting' => exact walk_quote hopen waiting'
          · obtain ⟨node, node', rfl, hlonger⟩ := nextPart?_backslash hlast hpart
            have hpart' := hlonger _ hblunt
            rw [List.singleton_append, walk_of_nextPart? hpart', take_atom, Option.bind_some]
            rw [take_atom, Option.bind_some] at hnone
            cases hsupply : supply waiting node with
            | done node =>
                rw [hsupply] at hnone
                cases hnone
            | more waiting' =>
                obtain ⟨waiting'', hsupply'⟩ := supply_eq_more hsupply node'
                rw [hsupply']
                exact walk_quote hopen waiting''
        · have hmore : ∀ more, walk waiting (text ++ more) =
              (take waiting part).bind fun progress => resume progress (rest ++ more) :=
            fun more => walk_of_nextPart? (nextPart?_append hpart fun hnil => absurd hnil hrest)
          cases htake : take waiting part with
          | none =>
              refine absurd ?_ hsome
              rw [hmore, htake]
              rfl
          | some progress =>
              simp only [htake, Option.bind_some] at hnone hmore
              cases progress with
              | done node => cases hnone
              | more waiting' =>
                  have hsuffix := nextPart?_suffix hpart
                  have hextra' : extra = [] ∨
                      extra = [.char 'x'] ∧ rest.getLast? = some (.char '\\') := by
                    rwa [getLast?_of_suffix hsuffix hrest]
                  rw [hmore] at hsome
                  obtain ⟨last, end', hend, hsuffix', hlater⟩ :=
                    openEnd_of_quote hnone hextra' hopen hsome
                  exact ⟨last, end', hend, hsuffix'.trans hsuffix, fun more =>
                    (hmore more).trans (hlater more)⟩
termination_by text.length

end Grammar

end MiniLisp
