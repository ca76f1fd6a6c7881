import MiniLisp.Proofs.GrammarRules

/-!
The walk along a text, which keeps what is open and never goes back, matches what the
rules of the grammar match.  Wherever an expression may follow, the walk takes what the
rule for expressions finds; where the rule fails, the walk can only close the innermost
list or go on with its tail.
-/

namespace MiniLisp

namespace Grammar

open Rule (mark? all tail collect listNode)

theorem partAfterTail?_skipGaps (text : List Glyph) :
    partAfterTail? (skipGaps text) =
      match mark? ')' text with
      | some rest => some (.closeParen, rest)
      | none => (mark? '.' text).map fun rest => (.dot, rest) := by
  rw [mark?, mark?]
  cases skipGaps text with
  | nil => rfl
  | cons glyph rest =>
      simp only [partAfterTail?]
      split_ifs <;> rfl

/-- The next part of an expression that has begun. -/
def nextPart? (waiting : List Open) (text : List Glyph) : Option (Part × List Glyph) :=
  if afterTail waiting then partAfterTail? (skipGaps text) else part? (skipGaps text)

theorem length_nextPart? {waiting : List Open} {text rest : List Glyph} {part : Part}
    (hpart : nextPart? waiting text = some (part, rest)) : rest.length < text.length := by
  rw [nextPart?] at hpart
  split_ifs at hpart
  · rw [partAfterTail?_skipGaps] at hpart
    split at hpart
    · next behind hmark =>
        cases hpart
        exact Rule.length_mark? hmark
    · obtain ⟨behind, hmark, hfound⟩ := Option.map_eq_some_iff.mp hpart
      cases hfound
      exact Rule.length_mark? hmark
  · exact Rule.length_part?_skipGaps hpart

theorem matchOver_succ (fuel : Nat) (waiting : List Open) (text : List Glyph) :
    matchOver (fuel + 1) waiting text =
      match nextPart? waiting text with
      | none => none
      | some (part, rest) =>
          match take waiting part with
          | none => none
          | some (.done node) => some (node, rest)
          | some (.more waiting) => matchOver fuel waiting rest := rfl

/-- Fuel beyond the length of the text makes no difference. -/
theorem matchOver_fuel {fuel fuel' : Nat} {waiting : List Open} {text : List Glyph}
    (hfuel : text.length < fuel) (hfuel' : text.length < fuel') :
    matchOver fuel waiting text = matchOver fuel' waiting text := by
  induction fuel generalizing fuel' waiting text with
  | zero => exact absurd hfuel (Nat.not_lt_zero _)
  | succ fuel ih =>
      obtain ⟨fuel', rfl⟩ : ∃ less, fuel' = less + 1 := ⟨fuel' - 1, by omega⟩
      rw [matchOver_succ, matchOver_succ]
      cases hpart : nextPart? waiting text with
      | none => rfl
      | some found =>
          obtain ⟨part, rest⟩ := found
          have hshorter := length_nextPart? hpart
          simp only
          split
          · rfl
          · rfl
          · exact ih (by omega) (by omega)

/-- Match on from open parts, with fuel enough. -/
def walk (waiting : List Open) (text : List Glyph) : Option (Node × List Glyph) :=
  matchOver (text.length + 1) waiting text

/-- Go on from where a part has led. -/
def resume : Progress → List Glyph → Option (Node × List Glyph)
  | .done node, rest => some (node, rest)
  | .more waiting, rest => walk waiting rest

theorem walk_eq (waiting : List Open) (text : List Glyph) :
    walk waiting text =
      (nextPart? waiting text).bind fun (part, rest) =>
        (take waiting part).bind fun progress => resume progress rest := by
  rw [walk, matchOver_succ]
  cases hpart : nextPart? waiting text with
  | none => rfl
  | some found =>
      obtain ⟨part, rest⟩ := found
      have hshorter := length_nextPart? hpart
      simp only [Option.bind_some]
      cases take waiting part with
      | none => rfl
      | some progress =>
          cases progress with
          | done node => rfl
          | more waiting' => exact matchOver_fuel hshorter (Nat.lt_succ_self _)

theorem part?_of_mark?_close {text rest : List Glyph} (hmark : mark? ')' text = some rest) :
    part? (skipGaps text) = some (.closeParen, rest) ∧ mark? '.' text = none := by
  rw [mark?] at hmark ⊢
  cases hskip : skipGaps text with
  | nil => simp [hskip] at hmark
  | cons glyph behind =>
      simp only [hskip] at hmark
      split_ifs at hmark with hclose
      cases Rule.eq_of_isChar hclose
      cases hmark
      exact ⟨rfl, rfl⟩

/-- What a dot starts is a tail, or a symbol. -/
theorem part?_of_mark?_dot {text rest : List Glyph} (hmark : mark? '.' text = some rest)
    (hatom : ∀ node behind, part? (skipGaps text) ≠ some (.atom node, behind)) :
    part? (skipGaps text) = some (.dot, rest) := by
  rw [mark?] at hmark
  cases hskip : skipGaps text with
  | nil => simp [hskip] at hmark
  | cons glyph behind =>
      simp only [hskip] at hmark hatom
      split_ifs at hmark with hdot
      cases Rule.eq_of_isChar hdot
      cases hmark
      by_cases hsymbol : rest.head?.any isSymbolGlyph = true
      · refine absurd ?_ (hatom (symbolNode (.char '.' :: rest.takeWhile isSymbolGlyph))
          (rest.dropWhile isSymbolGlyph))
        simp [part?, Glyph.isChar, Glyph.satisfies, isDigit, Lexer.isDigit, hsymbol, symbolFrom]
      · simp [part?, Glyph.isChar, Glyph.satisfies, isDigit, Lexer.isDigit, hsymbol]

theorem mark?_of_part? {text rest : List Glyph} :
    (part? (skipGaps text) = some (.closeParen, rest) → mark? ')' text = some rest) ∧
      (part? (skipGaps text) = some (.dot, rest) → mark? '.' text = some rest) := by
  rw [mark?, mark?]
  cases skipGaps text with
  | nil => simp [part?]
  | cons glyph behind =>
      rw [part?]
      split_ifs <;> simp_all [intFrom, symbolFrom]

/-- Where a rule for expressions fails, the walk closes the innermost list, finds its dot,
or fails. -/
def stuck (waiting : List Open) (text : List Glyph) : Option (Node × List Glyph) :=
  match part? (skipGaps text) with
  | some (.closeParen, rest) => (take waiting .closeParen).bind (resume · rest)
  | some (.dot, rest) => (take waiting .dot).bind (resume · rest)
  | _ => none

/-- The walk along a text shorter than `bound` does what a rule for expressions says,
wherever an expression may follow. -/
structure Walks (expr : Rule Node) (bound : Nat) : Prop where
  found {waiting : List Open} {text rest : List Glyph} {node : Node}
    (hbound : text.length < bound) (hwaiting : afterTail waiting = false)
    (hexpr : expr text = some (node, rest)) :
    walk waiting text = resume (supply waiting node) rest
  failed {waiting : List Open} {text : List Glyph} (hbound : text.length < bound)
    (hwaiting : afterTail waiting = false) (hexpr : expr text = none) :
    walk waiting text = stuck waiting text
  atom {text : List Glyph} (hbound : text.length < bound) (hexpr : expr text = none)
    (node : Node) (rest : List Glyph) : part? (skipGaps text) ≠ some (.atom node, rest)

/-- Close a list behind its tails. -/
def closing (outer : List Open) (list : OpenList) (tails : List Node × List Glyph) :
    Option (Node × List Glyph) :=
  (mark? ')' tails.2).bind fun rest =>
    resume (supply outer (tails.1.foldl OpenList.addTail list).close) rest

theorem closing_nil (outer : List Open) (list : OpenList) (text : List Glyph) :
    closing outer list ([], text) =
      (mark? ')' text).bind fun rest => resume (supply outer list.close) rest := rfl

theorem dotted_addTail (list : OpenList) (node : Node) :
    (list.addTail node).dotted = list.dotted := by
  cases node <;> rfl

/-- That a tail has begun makes no difference to the node of a list. -/
theorem closing_dotted (outer : List Open) (list : OpenList)
    (tails : List Node × List Glyph) :
    closing outer { list with dotted := true } tails = closing outer list tails := by
  obtain ⟨nodes, text⟩ := tails
  have hclose : (nodes.foldl OpenList.addTail { list with dotted := true }).close =
      (nodes.foldl OpenList.addTail list).close := by
    induction nodes generalizing list with
    | nil => rfl
    | cons node nodes ih =>
        cases node with
        | ok value => exact ih (list.addTail (.ok value))
        | error fault => exact ih (list.addTail (.error fault))
  simp only [closing, hclose]

section

variable {expr : Rule Node} {bound : Nat}

/-- The walk behind a dot, if it is known behind the tail. -/
theorem walk_tail (hwalks : Walks expr bound) (hprogresses : Rule.Progresses expr)
    {outer : List Open} {list : OpenList} {text rest : List Glyph}
    (hbound : text.length < bound) (hdot : mark? '.' text = some rest)
    (hclose : mark? ')' text = none)
    (hnext : ∀ node behind, expr rest = some (node, behind) →
      walk (.list (list.addTail node) :: outer) behind =
        closing outer (list.addTail node) (all (tail expr) behind)) :
    walk (.tail list :: outer) rest = closing outer list (all (tail expr) text) := by
  have hshorter := Rule.length_mark? hdot
  have htail : tail expr text = expr rest := by rw [Rule.tail_eq, hdot, Option.bind_some]
  cases hexpr : expr rest with
  | none =>
      rw [Rule.all_none (htail.trans hexpr), closing_nil, hclose,
        hwalks.failed (by omega) rfl hexpr, stuck]
      split <;> rfl
  | some found =>
      obtain ⟨node, behind⟩ := found
      rw [Rule.all_some (Rule.tail_progresses hprogresses) (htail.trans hexpr),
        hwalks.found (by omega) rfl hexpr]
      exact hnext node behind hexpr

/-- The walk behind a tail. -/
theorem walk_tails (hwalks : Walks expr bound) (hprogresses : Rule.Progresses expr)
    {outer : List Open} {list : OpenList} (hdotted : list.dotted = true) {text : List Glyph}
    (hbound : text.length < bound) :
    walk (.list list :: outer) text = closing outer list (all (tail expr) text) := by
  have hafter : afterTail (.list list :: outer) = true := hdotted
  rw [walk_eq, nextPart?, if_pos hafter, partAfterTail?_skipGaps]
  cases hclose : mark? ')' text with
  | some rest =>
      have hdot := (part?_of_mark?_close hclose).2
      have htail : tail expr text = none := by rw [Rule.tail_eq, hdot, Option.bind_none]
      rw [Rule.all_none htail, closing_nil, hclose]
      rfl
  | none =>
      cases hdot : mark? '.' text with
      | none =>
          have htail : tail expr text = none := by rw [Rule.tail_eq, hdot, Option.bind_none]
          rw [Rule.all_none htail, closing_nil, hclose]
          rfl
      | some rest =>
          have hshorter := Rule.length_mark? hdot
          have hsame : { list with dotted := true } = list := by rw [← hdotted]
          change walk (.tail { list with dotted := true } :: outer) rest = _
          rw [hsame]
          refine walk_tail hwalks hprogresses hbound hdot hclose fun node behind hexpr => ?_
          have hbehind := hprogresses rest node behind hexpr
          exact walk_tails hwalks hprogresses ((dotted_addTail list node).trans hdotted)
            (by omega)
termination_by text.length

/-- The walk behind the parenthesis that opens a list. -/
theorem walk_items (hwalks : Walks expr bound) (hprogresses : Rule.Progresses expr)
    {outer : List Open} {list : OpenList} (hdotted : list.dotted = false) {text : List Glyph}
    (hbound : text.length < bound) :
    walk (.list list :: outer) text =
      closing outer ((all expr text).1.foldl OpenList.addItem list)
        (all (tail expr) (all expr text).2) := by
  have hafter : afterTail (.list list :: outer) = false := hdotted
  cases hexpr : expr text with
  | some found =>
      obtain ⟨node, rest⟩ := found
      have hshorter := hprogresses text node rest hexpr
      have hsame : (list.addItem node).dotted = false := by
        cases node <;> exact hdotted
      rw [hwalks.found hbound hafter hexpr, Rule.all_some hprogresses hexpr]
      exact walk_items hwalks hprogresses hsame (by omega)
  | none =>
      rw [hwalks.failed hbound hafter hexpr, Rule.all_none hexpr, stuck]
      cases hclose : mark? ')' text with
      | some rest =>
          obtain ⟨hpart, hdot⟩ := part?_of_mark?_close hclose
          have htail : tail expr text = none := by rw [Rule.tail_eq, hdot, Option.bind_none]
          rw [hpart, Rule.all_none htail, closing_nil, hclose]
          rfl
      | none =>
          cases hdot : mark? '.' text with
          | some rest =>
              rw [part?_of_mark?_dot hdot (hwalks.atom hbound hexpr), ← closing_dotted]
              refine walk_tail hwalks hprogresses hbound hdot hclose fun node behind hnode => ?_
              have hshorter := Rule.length_mark? hdot
              have hbehind := hprogresses rest node behind hnode
              exact walk_tails hwalks hprogresses (dotted_addTail _ node) (by omega)
          | none =>
              have htail : tail expr text = none := by rw [Rule.tail_eq, hdot, Option.bind_none]
              rw [Rule.all_none htail, closing_nil, hclose]
              split
              · next behind hpart => simp [mark?_of_part?.1 hpart] at hclose
              · next behind hpart => simp [mark?_of_part?.2 hpart] at hdot
              · rfl
termination_by text.length

end

/-! ### The node of a list -/

/-- The fault among nodes that are added one after the other. -/
theorem fault_foldl (add : OpenList → Node → OpenList)
    (hok : ∀ list value, (add list (.ok value)).fault = list.fault)
    (herror : ∀ list fault, (add list (.error fault)).fault = list.fault.or (some fault))
    (list : OpenList) (nodes : List Node) :
    (nodes.foldl add list).fault =
      list.fault.or (match collect nodes with
        | .ok _ => none
        | .error fault => some fault) := by
  induction nodes generalizing list with
  | nil => simp [collect]
  | cons node nodes ih =>
      rw [List.foldl_cons, ih]
      cases node with
      | ok value => cases hnodes : collect nodes <;> simp [collect, hnodes, hok, Except.map]
      | error fault => simp [collect, herror]

theorem eq_map_of_collect {nodes : List Node} {values : List Value}
    (hvalues : collect nodes = .ok values) : nodes = values.map .ok := by
  induction nodes generalizing values with
  | nil =>
      cases hvalues
      rfl
  | cons node nodes ih =>
      cases node with
      | error fault => cases hvalues
      | ok value =>
          cases hnodes : collect nodes with
          | error fault => simp [collect, hnodes, Except.map] at hvalues
          | ok values' =>
              simp only [collect, hnodes, Except.map, Except.ok.injEq] at hvalues
              rw [← hvalues, List.map_cons, ← ih hnodes]

theorem collect_map_ok (values : List Value) : collect (values.map .ok) = .ok values := by
  induction values with
  | nil => rfl
  | cons value values ih => rw [List.map_cons, collect, ih, Except.map]

theorem foldl_addItem (values : List Value) (list : OpenList) :
    (values.map .ok).foldl OpenList.addItem list =
      { list with items := values.reverse ++ list.items } := by
  induction values generalizing list with
  | nil => rfl
  | cons value values ih => simp [ih, OpenList.addItem]

theorem foldl_addTail (values : List Value) (list : OpenList) :
    (values.map .ok).foldl OpenList.addTail list =
      { list with tails := values.reverse ++ list.tails } := by
  induction values generalizing list with
  | nil => rfl
  | cons value values ih => simp [ih, OpenList.addTail]

theorem close_eq_error {list : OpenList} {fault : ReadFault} (hfault : list.fault = some fault) :
    list.close = .error fault := by
  rw [OpenList.close, hfault]

theorem close_of_values (items tails : List Value) :
    OpenList.close ⟨items.reverse, tails.reverse, false, none⟩ =
      listNode (items.map .ok) (tails.map .ok) := by
  rw [listNode, collect_map_ok, collect_map_ok]
  rcases items with _ | ⟨item, items⟩
  · rcases tails with _ | ⟨tail, tails⟩
    · rfl
    · obtain ⟨last, others, hreverse⟩ :=
        List.exists_cons_of_ne_nil (List.reverse_ne_nil_iff.mpr (List.cons_ne_nil tail tails))
      rw [hreverse]
      rfl
  · obtain ⟨last, others, hreverse⟩ :=
      List.exists_cons_of_ne_nil (List.reverse_ne_nil_iff.mpr (List.cons_ne_nil item items))
    rcases tails with _ | ⟨tail, _ | ⟨tail', tails⟩⟩
    · simp [OpenList.close]
    · rw [hreverse]
      change Except.ok (Value.ofSpine (last :: others).reverse tail) = _
      rw [← hreverse, List.reverse_reverse]
    · have htwo : 2 ≤ (tail :: tail' :: tails).reverse.length := by simp
      generalize (tail :: tail' :: tails).reverse = reversed at htwo ⊢
      rcases reversed with _ | ⟨last', _ | ⟨before, others'⟩⟩
      · cases htwo
      · simp at htwo
      · rw [hreverse]
        rfl

/-- A list that is closed has the node of its items and tails. -/
theorem close_eq_listNode (items tails : List Node) :
    (tails.foldl OpenList.addTail (items.foldl OpenList.addItem .new)).close =
      listNode items tails := by
  have hitem := fault_foldl OpenList.addItem (fun _ _ => rfl) (fun _ _ => rfl) .new items
  have htail := fault_foldl OpenList.addTail (fun _ _ => rfl) (fun _ _ => rfl)
    (items.foldl OpenList.addItem .new) tails
  rw [hitem] at htail
  cases hitems : collect items with
  | error fault =>
      rw [hitems] at htail
      rw [close_eq_error htail, listNode, hitems]
  | ok values =>
      cases htails : collect tails with
      | error fault =>
          rw [hitems, htails] at htail
          rw [close_eq_error htail, listNode, hitems, htails]
      | ok values' =>
          rw [eq_map_of_collect hitems, eq_map_of_collect htails, foldl_addItem, foldl_addTail,
            ← close_of_values]
          simp only [OpenList.new, List.append_nil]

/-! ### The walk and the rules -/

theorem take_atom (waiting : List Open) (node : Node) :
    take waiting (.atom node) = some (supply waiting node) := by
  rcases waiting with _ | ⟨_ | _ | _, outer⟩ <;> rfl

theorem walk_of_part? {waiting : List Open} (hwaiting : afterTail waiting = false)
    {text rest : List Glyph} {part : Part} (hpart : part? (skipGaps text) = some (part, rest)) :
    walk waiting text = (take waiting part).bind fun progress => resume progress rest := by
  rw [walk_eq, nextPart?, hwaiting, if_neg Bool.false_ne_true, hpart, Option.bind_some]

/-- A quote closes no list and has no dot. -/
theorem stuck_quote (outer : List Open) (text : List Glyph) :
    stuck (.quote :: outer) text = none := by
  rw [stuck]
  split <;> rfl

/-- The walk behind an opening parenthesis. -/
theorem walk_list {expr : Rule Node} {bound : Nat} (hwalks : Walks expr bound)
    (hprogresses : Rule.Progresses expr) (outer : List Open) {text : List Glyph}
    (hbound : text.length < bound) :
    walk (.list .new :: outer) text =
      (Rule.listBody expr text).bind fun (node, rest) => resume (supply outer node) rest := by
  rw [walk_items hwalks hprogresses rfl hbound, closing, close_eq_listNode, Rule.listBody]
  cases mark? ')' (all (tail expr) (all expr text).2).2 <;> rfl

/-- One more level of nesting. -/
theorem walk_expr_succ {depth : Nat} (hwalks : Walks (Rule.expr depth) depth)
    {waiting : List Open} (hwaiting : afterTail waiting = false) {text : List Glyph}
    (hbound : text.length < depth + 1) :
    walk waiting text =
      match Rule.expr (depth + 1) text with
      | some (node, rest) => resume (supply waiting node) rest
      | none => stuck waiting text := by
  rw [Rule.expr_succ, stuck]
  cases hpart : part? (skipGaps text) with
  | none => rw [walk_eq, nextPart?, hwaiting, if_neg Bool.false_ne_true, hpart, Option.bind_none]
  | some found =>
      obtain ⟨part, rest⟩ := found
      have hshorter := Rule.length_part?_skipGaps hpart
      rw [walk_of_part? hwaiting hpart]
      cases part with
      | closeParen => rfl
      | dot => rfl
      | atom node => rw [take_atom, Option.bind_some]
      | openParen =>
          change walk (.list .new :: waiting) rest = _
          rw [walk_list hwalks (Rule.expr_progresses depth) waiting (by omega)]
          simp only
          cases Rule.listBody (Rule.expr depth) rest <;> rfl
      | quote =>
          change walk (.quote :: waiting) rest = _
          cases hexpr : Rule.expr depth rest with
          | none =>
              rw [hwalks.failed (by omega) rfl hexpr, stuck_quote]
              simp only [Rule.map, hexpr, Option.map_none]
          | some found =>
              obtain ⟨node, behind⟩ := found
              rw [hwalks.found (by omega) rfl hexpr]
              simp only [Rule.map, hexpr, Option.map_some, supply]

theorem walks_expr (depth : Nat) : Walks (Rule.expr depth) depth := by
  induction depth with
  | zero =>
      constructor
      · intro _ text _ _ hbound
        exact absurd hbound (Nat.not_lt_zero _)
      · intro _ text hbound
        exact absurd hbound (Nat.not_lt_zero _)
      · intro text hbound
        exact absurd hbound (Nat.not_lt_zero _)
  | succ depth ih =>
      constructor
      · intro waiting text rest node hbound hwaiting hexpr
        rw [walk_expr_succ ih hwaiting hbound, hexpr]
      · intro waiting text hbound hwaiting hexpr
        rw [walk_expr_succ ih hwaiting hbound, hexpr]
      · intro text hbound hexpr node rest hpart
        rw [Rule.expr_succ, hpart] at hexpr
        cases hexpr

/-- The grammar matches what its rules match, and fails where they fail.  No expression
nests as deep as its text is long. -/
theorem matchOver_eq_expr {fuel : Nat} {text : List Glyph} (hfuel : text.length < fuel) :
    matchOver fuel [] text = Rule.expr fuel text := by
  rw [matchOver_fuel hfuel (Nat.lt_succ_self _)]
  change walk [] text = _
  cases hexpr : Rule.expr fuel text with
  | none =>
      rw [(walks_expr fuel).failed hfuel rfl hexpr, stuck]
      split <;> rfl
  | some found => exact (walks_expr fuel).found hfuel rfl hexpr

end Grammar

end MiniLisp
