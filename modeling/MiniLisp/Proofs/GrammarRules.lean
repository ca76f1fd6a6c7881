import Mathlib.Tactic.SplitIfs
import MiniLisp.Reader.Grammar

/-!
The rules of the grammar as they are written: a rule matches the beginning of a text or
fails and takes nothing, a choice goes to the first alternative that matches, and a
repetition takes as much as it can.
-/

namespace MiniLisp

namespace Grammar

/-- What a rule finds at the beginning of a text, and what follows it. -/
abbrev Rule (α : Type) := List Glyph → Option (α × List Glyph)

namespace Rule

/-- Skip blanks, and match where they end. -/
def token {α : Type} (rule : Rule α) : Rule α :=
  fun text => rule (text.dropWhile (Glyph.satisfies isGap))

def andThen {α β : Type} (first : Rule α) (second : Rule β) : Rule (α × β) :=
  fun text => do
    let (a, rest) ← first text
    let (b, rest) ← second rest
    return ((a, b), rest)

/-- The first alternative that matches. -/
def orElse {α : Type} (first second : Rule α) : Rule α :=
  fun text => (first text).or (second text)

def map {α β : Type} (f : α → β) (rule : Rule α) : Rule β :=
  fun text => (rule text).map fun (a, rest) => (f a, rest)

/-- A rule up to `count` times. -/
def manyOver {α : Type} (rule : Rule α) : (count : Nat) → List Glyph → List α × List Glyph
  | 0, text => ([], text)
  | count + 1, text =>
      match rule text with
      | none => ([], text)
      | some (a, rest) =>
          let (more, rest) := manyOver rule count rest
          (a :: more, rest)

/-- A rule as often as it matches.  It takes a glyph every time. -/
def many {α : Type} (rule : Rule α) : Rule (List α) :=
  fun text => some (manyOver rule text.length text)

def atom (c : Char) : Rule Unit :=
  token fun
    | glyph :: rest => if glyph.isChar c then some ((), rest) else none
    | [] => none

/-- A comment, up to the end of the line. -/
def comment : Rule Unit :=
  token fun
    | glyph :: rest =>
        if glyph.isChar ';' then some ((), rest.dropWhile fun glyph => !glyph.isChar '\n')
        else none
    | [] => none

def string : Rule Node :=
  token fun
    | glyph :: rest =>
        if glyph.isChar '"' then
          (stringOver [glyph] false rest).map fun (literal, rest) => (stringNode literal, rest)
        else none
    | [] => none

/-- Digits, with a minus sign or without. -/
def int : Rule Node :=
  token fun
    | glyph :: rest =>
        if isDigit glyph || glyph.isChar '-' && rest.head?.any isDigit then
          some (intNode (glyph :: rest.takeWhile isDigit), rest.dropWhile isDigit)
        else none
    | [] => none

/-- A symbol.  It does not start with a semicolon, nor is it a dot alone. -/
def symbol : Rule Node :=
  token fun
    | glyph :: rest =>
        if isSymbolGlyph glyph && !glyph.isChar ';' && !glyph.isChar '.' ||
            glyph.isChar '.' && rest.head?.any isSymbolGlyph then
          some (symbolNode (glyph :: rest.takeWhile isSymbolGlyph),
            rest.dropWhile isSymbolGlyph)
        else none
    | [] => none

/-- A literal or a symbol.  Symbols come last, for they take almost anything. -/
def term : Rule Node :=
  string.orElse (int.orElse symbol)

/-- The values of nodes, or the first fault in them. -/
def collect : List Node → Except ReadFault (List Value)
  | [] => .ok []
  | .error fault :: _ => .error fault
  | .ok value :: nodes => (collect nodes).map (value :: ·)

/-- The node of a list of items and tails.  It has at most one tail, and that behind an
item; but a fault inside of it counts first. -/
def listNode (items tails : List Node) : Node :=
  match collect items, collect tails with
  | .error fault, _ => .error fault
  | .ok _, .error fault => .error fault
  | .ok items, .ok [] => .ok (.ofList items)
  | .ok [], .ok (_ :: _) => .error .leadingDot
  | .ok items, .ok [tail] => .ok (.ofSpine items tail)
  | .ok _, .ok (_ :: _ :: _) => .error .afterTail

def tail (expr : Rule Node) : Rule Node :=
  (comment.many.andThen ((atom '.').andThen expr)).map fun (_, _, node) => node

def list (expr : Rule Node) : Rule Node :=
  ((atom '(').andThen (expr.many.andThen ((tail expr).many.andThen
    (comment.many.andThen (atom ')'))))).map fun (_, items, tails, _, _) =>
      listNode items tails

def quoted (expr : Rule Node) : Rule Node :=
  ((atom '\'').andThen expr).map fun (_, node) => Except.map Value.quote node

/-- An expression that nests less than `depth` deep. -/
def expr : (depth : Nat) → Rule Node
  | 0 => fun _ => none
  | depth + 1 =>
      (comment.many.andThen (term.orElse ((list (expr depth)).orElse
        (quoted (expr depth))))).map fun (_, node) => node

/-! ### Gaps -/

theorem eq_of_isChar {c : Char} {glyph : Glyph} (hchar : glyph.isChar c = true) :
    glyph = .char c := by
  cases glyph with
  | char c' => simpa [Glyph.isChar, Glyph.satisfies] using hchar
  | stray byte => cases hchar

/-- What is left of a text when gaps and comments are skipped starts with neither. -/
theorem skipGapsOver_head {inComment : Bool} {text rest : List Glyph} {glyph : Glyph}
    (hskip : skipGapsOver inComment text = glyph :: rest) :
    glyph.satisfies isGap = false ∧ glyph.isChar ';' = false := by
  induction text generalizing inComment with
  | nil => cases inComment <;> cases hskip
  | cons first text ih =>
      cases inComment with
      | true => exact ih hskip
      | false =>
          rw [skipGapsOver] at hskip
          split_ifs at hskip with hgap hcomment
          · exact ih hskip
          · exact ih hskip
          · cases hskip
            exact ⟨by simpa using hgap, by simpa using hcomment⟩

theorem length_skipGapsOver_le (inComment : Bool) (text : List Glyph) :
    (skipGapsOver inComment text).length ≤ text.length := by
  induction text generalizing inComment with
  | nil => cases inComment <;> exact Nat.le_refl 0
  | cons glyph text ih =>
      have hrest := fun b => Nat.le_succ_of_le (ih b)
      cases inComment with
      | true => exact hrest _
      | false =>
          rw [skipGapsOver]
          split_ifs
          · exact hrest false
          · exact hrest true
          · exact Nat.le_refl _

theorem skipGaps_dropWhile (text : List Glyph) :
    skipGaps (text.dropWhile (Glyph.satisfies isGap)) = skipGaps text := by
  induction text with
  | nil => rfl
  | cons glyph text ih =>
      by_cases hgap : glyph.satisfies isGap = true
      · rw [List.dropWhile_cons_of_pos hgap, ih]
        simp [skipGaps, skipGapsOver, hgap]
      · rw [List.dropWhile_cons_of_neg hgap]

theorem skipGapsOver_line (text : List Glyph) :
    skipGapsOver true text = skipGaps (text.dropWhile fun glyph => !glyph.isChar '\n') := by
  induction text with
  | nil => rfl
  | cons glyph text ih =>
      by_cases hline : glyph.isChar '\n' = true
      · cases eq_of_isChar hline
        rfl
      · simp [skipGapsOver, hline, ih]

/-! ### Repetition -/

/-- Whether a rule takes something whenever it matches. -/
def Progresses {α : Type} (rule : Rule α) : Prop :=
  ∀ text a rest, rule text = some (a, rest) → rest.length < text.length

/-- Everything that a rule finds when it is repeated, and what follows. -/
def all {α : Type} (rule : Rule α) (text : List Glyph) : List α × List Glyph :=
  manyOver rule text.length text

theorem manyOver_nil {α : Type} {rule : Rule α} (hprogresses : Progresses rule)
    (count : Nat) : manyOver rule count [] = ([], []) := by
  cases count with
  | zero => rfl
  | succ count =>
      rw [manyOver]
      split
      · rfl
      · next a rest hrule => exact absurd (hprogresses [] a rest hrule) (Nat.not_lt_zero _)

theorem manyOver_count {α : Type} {rule : Rule α} (hprogresses : Progresses rule)
    {count count' : Nat} {text : List Glyph} (hcount : text.length ≤ count)
    (hcount' : text.length ≤ count') :
    manyOver rule count text = manyOver rule count' text := by
  induction count generalizing count' text with
  | zero =>
      rw [List.eq_nil_of_length_eq_zero (Nat.le_zero.mp hcount), manyOver_nil hprogresses,
        manyOver_nil hprogresses]
  | succ count ih =>
      cases count' with
      | zero =>
          rw [List.eq_nil_of_length_eq_zero (Nat.le_zero.mp hcount'),
            manyOver_nil hprogresses, manyOver_nil hprogresses]
      | succ count' =>
          rw [manyOver, manyOver]
          cases hrule : rule text with
          | none => rfl
          | some found =>
              obtain ⟨a, rest⟩ := found
              have hshorter := hprogresses text a rest hrule
              simp only
              rw [ih (by omega) (by omega : rest.length ≤ count')]

theorem all_none {α : Type} {rule : Rule α} {text : List Glyph} (hrule : rule text = none) :
    all rule text = ([], text) := by
  rw [all]
  cases text.length with
  | zero => rfl
  | succ count => simp only [manyOver, hrule]

theorem all_some {α : Type} {rule : Rule α} (hprogresses : Progresses rule)
    {text rest : List Glyph} {a : α} (hrule : rule text = some (a, rest)) :
    all rule text = (a :: (all rule rest).1, (all rule rest).2) := by
  have hshorter := hprogresses text a rest hrule
  obtain ⟨count, hcount⟩ : ∃ count, text.length = count + 1 := ⟨text.length - 1, by omega⟩
  rw [all, hcount, manyOver, hrule]
  simp only
  rw [manyOver_count hprogresses (by omega : rest.length ≤ count) (Nat.le_refl _)]
  rfl

theorem comment_progresses : Progresses comment := by
  intro text a rest hcomment
  have hgaps := (List.dropWhile_suffix (l := text) (Glyph.satisfies isGap)).length_le
  rw [comment, token] at hcomment
  split at hcomment
  · next glyph behind hdrop =>
      split_ifs at hcomment
      cases hcomment
      have hline := (List.dropWhile_suffix (l := behind)
        fun glyph => !glyph.isChar '\n').length_le
      rw [hdrop, List.length_cons] at hgaps
      omega
  · cases hcomment

/-- Comments and the gap behind them are what is skipped before a part. -/
theorem dropWhile_comments (text : List Glyph) :
    (all comment text).2.dropWhile (Glyph.satisfies isGap) = skipGaps text := by
  rw [← skipGaps_dropWhile]
  cases hdrop : text.dropWhile (Glyph.satisfies isGap) with
  | nil =>
      have hcomment : comment text = none := by simp [comment, token, hdrop]
      rw [all_none hcomment, hdrop]
      rfl
  | cons glyph behind =>
      have hgap : glyph.satisfies isGap = false := by
        have hhead := List.head?_dropWhile_not (Glyph.satisfies isGap) text
        simpa [hdrop] using hhead
      by_cases hsemicolon : glyph.isChar ';' = true
      · have hcomment : comment text =
            some ((), behind.dropWhile fun glyph => !glyph.isChar '\n') := by
          simp [comment, token, hdrop, hsemicolon]
        have hshorter := comment_progresses text () _ hcomment
        rw [all_some comment_progresses hcomment]
        simp only [skipGaps, skipGapsOver, hgap, hsemicolon, Bool.false_eq_true, ↓reduceIte]
        rw [skipGapsOver_line]
        exact dropWhile_comments _
      · have hcomment : comment text = none := by simp [comment, token, hdrop, hsemicolon]
        rw [all_none hcomment, hdrop]
        simp [skipGaps, skipGapsOver, hgap, hsemicolon]
termination_by text.length

/-! ### Rules and parts -/

/-- The character that the text starts with when gaps and comments are skipped, if it is
`c`: what follows it. -/
def mark? (c : Char) (text : List Glyph) : Option (List Glyph) :=
  match skipGaps text with
  | glyph :: rest => if glyph.isChar c then some rest else none
  | [] => none

theorem many_eq {α : Type} (rule : Rule α) (text : List Glyph) :
    rule.many text = some (all rule text) := rfl

theorem atom_eq (c : Char) (text : List Glyph) :
    atom c (all comment text).2 = (mark? c text).map fun rest => ((), rest) := by
  rw [atom, token, dropWhile_comments, mark?]
  split
  · split_ifs <;> rfl
  · rfl

theorem tail_eq (expr : Rule Node) (text : List Glyph) :
    tail expr text = (mark? '.' text).bind expr := by
  simp only [tail, map, andThen, many_eq, Option.bind_eq_bind, Option.bind_some, atom_eq]
  cases mark? '.' text with
  | none => rfl
  | some rest => cases hexpr : expr rest <;> simp [hexpr]

/-- What follows the parenthesis that opens a list. -/
def listBody (expr : Rule Node) : Rule Node :=
  fun text =>
    let items := all expr text
    let tails := all (tail expr) items.2
    (mark? ')' tails.2).map fun rest => (listNode items.1 tails.1, rest)

theorem list_eq (expr : Rule Node) (text : List Glyph) :
    list expr (all comment text).2 = (mark? '(' text).bind (listBody expr) := by
  simp only [list, map, andThen, many_eq, Option.bind_eq_bind, Option.bind_some, atom_eq]
  cases mark? '(' text with
  | none => rfl
  | some rest =>
      simp only [listBody, Option.map_some, Option.bind_some]
      cases mark? ')' (all (tail expr) (all expr rest).2).2 <;> rfl

theorem quoted_eq (expr : Rule Node) (text : List Glyph) :
    quoted expr (all comment text).2 =
      (mark? '\'' text).bind (expr.map (Except.map Value.quote)) := by
  simp only [quoted, map, andThen, Option.bind_eq_bind, atom_eq]
  cases mark? '\'' text with
  | none => rfl
  | some rest => cases hexpr : expr rest <;> simp [map, hexpr]

/-- The alternatives for an expression, behind the comments before it. -/
theorem expr_alternatives (depth : Nat) (text : List Glyph) :
    expr (depth + 1) text =
      (term (all comment text).2).or ((list (expr depth) (all comment text).2).or
        (quoted (expr depth) (all comment text).2)) := by
  simp only [expr, map, andThen, many_eq, Option.bind_eq_bind, Option.bind_some, orElse]
  cases term (all comment text).2 <;> cases list (expr depth) (all comment text).2 <;>
    cases quoted (expr depth) (all comment text).2 <;> rfl

/-- The rule for expressions, by the part that comes next. -/
theorem expr_succ (depth : Nat) (text : List Glyph) :
    expr (depth + 1) text =
      match part? (skipGaps text) with
      | some (.atom node, rest) => some (node, rest)
      | some (.openParen, rest) => listBody (expr depth) rest
      | some (.quote, rest) => (expr depth).map (Except.map Value.quote) rest
      | _ => none := by
  rw [expr_alternatives, list_eq, quoted_eq, term, orElse, orElse, string, int, symbol]
  simp only [token, dropWhile_comments, mark?]
  cases hskip : skipGaps text with
  | nil => rfl
  | cons glyph rest =>
      obtain ⟨hgap, hsemicolon⟩ := skipGapsOver_head hskip
      rw [part?]
      split_ifs with hopen hclose hquote hstring hint hdot hbehind hsymbol
      · cases eq_of_isChar hopen
        simp [Glyph.isChar, Glyph.satisfies, isDigit, Lexer.isDigit, isSymbolGlyph, endsSymbol]
      · cases eq_of_isChar hclose
        simp [Glyph.isChar, Glyph.satisfies, isDigit, Lexer.isDigit, isSymbolGlyph, endsSymbol]
      · cases eq_of_isChar hquote
        simp [Glyph.isChar, Glyph.satisfies, isDigit, Lexer.isDigit, isSymbolGlyph, endsSymbol]
      · cases eq_of_isChar hstring
        cases hliteral : stringOver [.char '"'] false rest <;>
          simp [Glyph.isChar, Glyph.satisfies, isDigit, Lexer.isDigit, isSymbolGlyph, endsSymbol,
            hliteral]
      · simp [hstring, hint, intFrom]
      · simp [hstring, hint, hdot, hbehind, symbolFrom]
      · simp [hstring, hint, hdot, hbehind, hopen, hquote]
      · simp [hstring, hint, hdot, hsymbol, hsemicolon, symbolFrom]
      · simp [hstring, hint, hdot, hsymbol, hopen, hquote]

/-! ### Progress -/

theorem length_stringOver {done text literal rest : List Glyph} {escaped : Bool}
    (hstring : stringOver done escaped text = some (literal, rest)) :
    rest.length ≤ text.length := by
  induction text generalizing done escaped with
  | nil => cases escaped <;> cases hstring
  | cons glyph text ih =>
      rw [List.length_cons]
      cases escaped with
      | true => exact Nat.le_succ_of_le (ih hstring)
      | false =>
          rw [stringOver] at hstring
          split_ifs at hstring
          · cases hstring
            exact Nat.le_succ _
          · exact Nat.le_succ_of_le (ih hstring)

theorem length_part? {text rest : List Glyph} {part : Part}
    (hpart : part? text = some (part, rest)) : rest.length < text.length := by
  cases text with
  | nil => cases hpart
  | cons glyph text =>
      have hdrop := fun p => (List.dropWhile_suffix (l := text) p).length_le
      rw [List.length_cons, Nat.lt_succ_iff]
      rw [part?] at hpart
      split_ifs at hpart
      · cases hpart
        exact Nat.le_refl _
      · cases hpart
        exact Nat.le_refl _
      · cases hpart
        exact Nat.le_refl _
      · obtain ⟨⟨literal, behind⟩, hliteral, hfound⟩ := Option.map_eq_some_iff.mp hpart
        cases hfound
        exact length_stringOver hliteral
      · cases hpart
        exact hdrop isDigit
      · cases hpart
        exact hdrop isSymbolGlyph
      · cases hpart
        exact Nat.le_refl _
      · cases hpart
        exact hdrop isSymbolGlyph

theorem length_part?_skipGaps {text rest : List Glyph} {part : Part}
    (hpart : part? (skipGaps text) = some (part, rest)) : rest.length < text.length :=
  Nat.lt_of_lt_of_le (length_part? hpart) (length_skipGapsOver_le false text)

theorem length_mark? {c : Char} {text rest : List Glyph} (hmark : mark? c text = some rest) :
    rest.length < text.length := by
  have hskip := length_skipGapsOver_le false text
  rw [mark?] at hmark
  split at hmark
  · next glyph behind hglyph =>
      split_ifs at hmark
      cases hmark
      change (skipGaps text).length ≤ text.length at hskip
      rw [hglyph, List.length_cons] at hskip
      exact hskip
  · cases hmark

theorem length_manyOver_le {α : Type} {rule : Rule α} (hprogresses : Progresses rule)
    (count : Nat) (text : List Glyph) : (manyOver rule count text).2.length ≤ text.length := by
  induction count generalizing text with
  | zero => exact Nat.le_refl _
  | succ count ih =>
      rw [manyOver]
      split
      · exact Nat.le_refl _
      · next a rest hrule =>
          exact Nat.le_trans (ih rest) (Nat.le_of_lt (hprogresses text a rest hrule))

theorem length_all_le {α : Type} {rule : Rule α} (hprogresses : Progresses rule)
    (text : List Glyph) : (all rule text).2.length ≤ text.length :=
  length_manyOver_le hprogresses _ text

theorem tail_progresses {expr : Rule Node} (hexpr : Progresses expr) :
    Progresses (tail expr) := by
  intro text node rest htail
  rw [tail_eq] at htail
  obtain ⟨behind, hmark, hnode⟩ := Option.bind_eq_some_iff.mp htail
  exact Nat.lt_trans (hexpr behind node rest hnode) (length_mark? hmark)

theorem listBody_progresses {expr : Rule Node} (hexpr : Progresses expr) :
    Progresses (listBody expr) := by
  intro text node rest hlist
  obtain ⟨behind, hmark, hfound⟩ := Option.map_eq_some_iff.mp hlist
  cases hfound
  have hitems := length_all_le hexpr text
  have htails := length_all_le (tail_progresses hexpr) (all expr text).2
  exact Nat.lt_of_lt_of_le (length_mark? hmark) (Nat.le_trans htails hitems)

theorem expr_progresses (depth : Nat) : Progresses (expr depth) := by
  induction depth with
  | zero =>
      intro text node rest hexpr
      cases hexpr
  | succ depth ih =>
      intro text node rest hexpr
      rw [expr_succ] at hexpr
      split at hexpr
      · next node' behind hpart =>
          cases hexpr
          exact length_part?_skipGaps hpart
      · next behind hpart =>
          exact Nat.lt_trans (listBody_progresses ih behind node rest hexpr)
            (length_part?_skipGaps hpart)
      · next behind hpart =>
          obtain ⟨⟨node', behind'⟩, hquoted, hfound⟩ := Option.map_eq_some_iff.mp hexpr
          cases hfound
          exact Nat.lt_trans (ih behind node' rest hquoted) (length_part?_skipGaps hpart)
      · cases hexpr

end Rule

end Grammar

end MiniLisp
