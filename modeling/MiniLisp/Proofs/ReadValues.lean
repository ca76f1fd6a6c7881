import MiniLisp.Proofs.Lines
import MiniLisp.Proofs.ReadBack
import MiniLisp.Reader

/-!
The values of source text.  Whatever a reader reads is plain data: symbols, integers, texts
and pairs of these.  Both readers keep to that wherever they stand in a text, so a program
starts without functions and without anything that does not exist.
-/

namespace MiniLisp

theorem eq_ok_of_mapError {ε ε' α : Type} {f : ε → ε'} {result : Except ε α} {value : α}
    (hok : result.mapError f = .ok value) : result = .ok value := by
  cases result with
  | error error => cases hok
  | ok found =>
      cases hok
      rfl

namespace Value

/-- Made of symbols, integers and texts alone. -/
def Plain : Value → Prop
  | .symbol _ | .int _ | .text _ => True
  | .pair head tail => head.Plain ∧ tail.Plain
  | _ => False

theorem plain_ofSpine {items : List Value} {tail : Value} (hitems : ∀ item ∈ items, item.Plain)
    (htail : tail.Plain) : (ofSpine items tail).Plain := by
  apply List.foldrRecOn items Value.pair htail
  intro rest hrest item hmem
  exact ⟨hitems item hmem, hrest⟩

theorem plain_ofList {items : List Value} (hitems : ∀ item ∈ items, item.Plain) :
    (ofList items).Plain :=
  plain_ofSpine hitems trivial

theorem Plain.quote {value : Value} (hvalue : value.Plain) : value.quote.Plain :=
  ⟨trivial, hvalue, trivial⟩

end Value

/-! ### The token reader -/

mutual

/-- An expression reads as plain data. -/
theorem Phrase.plain {limit : Int} {outer : Nat} {tokens : List Token} {value : Value}
    (hphrase : Phrase limit outer tokens value) : value.Plain := by
  match hphrase with
  | .int _ _ _ => trivial
  | .string _ _ => trivial
  | .symbol _ => trivial
  | .quote _ _ hquoted => exact hquoted.plain.quote
  | .list _ _ hitems _ => exact Value.plain_ofList hitems.plain
  | .dotted _ _ hitems _ _ htail _ => exact Value.plain_ofSpine hitems.plain htail.plain

@[inherit_doc Phrase.plain]
theorem Phrases.plain {limit : Int} {outer : Nat} {tokens : List Token}
    {values : List Value} (hphrases : Phrases limit outer tokens values) :
    ∀ value ∈ values, value.Plain := by
  match hphrases with
  | .nil => simp
  | .cons hfirst hrest => exact List.forall_mem_cons.mpr ⟨hfirst.plain, hrest.plain⟩

end

namespace TokenReader

theorem plain_readAll {file text : Bytes} {limit : Int} {values : List Value}
    (hread : (ofBytes file text limit).readAll.1 = .ok values) :
    ∀ value ∈ values, value.Plain := by
  obtain ⟨_, hcuts, _⟩ := Lexer.tokens_ofBytes file text
  exact ((readAll_eq_ok_of_cuts hcuts values).mp hread).2.plain

theorem plain_readFirst {file text : Bytes} {limit : Int} {value : Value}
    (hread : (ofBytes file text limit).readFirst.1 = .ok value) : value.Plain := by
  obtain ⟨_, hcuts, hhonest⟩ := Lexer.tokens_ofBytes file text
  have hfirst := (ofBytes file text limit).readFirst_eq rfl hcuts.isFinal hhonest
  rw [hread] at hfirst
  split_ifs at hfirst
  · cases hfirst
    trivial
  · obtain ⟨result, hover⟩ : ∃ result, (ofBytes file text limit).readOver
        (ofBytes file text limit).ahead .top = result := ⟨_, rfl⟩
    rw [hover] at hfirst
    obtain ⟨more, _, hphrase⟩ := phrase_of_readOver rfl .top
      (hover.trans (Prod.ext hfirst.symm rfl))
    exact hphrase.plain

end TokenReader

/-! ### The scannerless reader -/

namespace Grammar

def Node.Plain (node : Node) : Prop :=
  ∀ value, node = .ok value → value.Plain

def Open.Plain : Open → Prop
  | .quote => True
  | .list opened | .tail opened =>
      (∀ item ∈ opened.items, item.Plain) ∧ ∀ tail ∈ opened.tails, tail.Plain

def Progress.Plain : Progress → Prop
  | .more waiting => ∀ part ∈ waiting, part.Plain
  | .done node => Node.Plain node

theorem plain_addItem {list : OpenList} {node : Node} (hlist : (Open.list list).Plain)
    (hnode : Node.Plain node) : (Open.list (list.addItem node)).Plain := by
  cases node with
  | error fault => exact hlist
  | ok value => exact ⟨List.forall_mem_cons.mpr ⟨hnode value rfl, hlist.1⟩, hlist.2⟩

theorem plain_addTail {list : OpenList} {node : Node} (hlist : (Open.tail list).Plain)
    (hnode : Node.Plain node) : (Open.list (list.addTail node)).Plain := by
  cases node with
  | error fault => exact hlist
  | ok value => exact ⟨hlist.1, List.forall_mem_cons.mpr ⟨hnode value rfl, hlist.2⟩⟩

theorem plain_close {list : OpenList} (hlist : (Open.list list).Plain) :
    Node.Plain list.close := by
  intro value hvalue
  obtain ⟨hitems, htails⟩ := hlist
  obtain ⟨items, tails, dotted, fault⟩ := list
  have hreverse : ∀ item ∈ items.reverse, item.Plain :=
    fun item hmem => hitems item (List.mem_reverse.mp hmem)
  rcases fault with _ | fault
  · rcases tails with _ | ⟨tail, _ | ⟨other, more⟩⟩
    · cases hvalue
      exact Value.plain_ofList hreverse
    · rcases items with _ | ⟨item, items⟩
      · cases hvalue
      · cases hvalue
        exact Value.plain_ofSpine hreverse (htails tail (by simp))
    · rcases items with _ | ⟨item, items⟩ <;> cases hvalue
  · cases hvalue

theorem plain_supply {waiting : List Open} {node : Node}
    (hwaiting : ∀ part ∈ waiting, part.Plain) (hnode : Node.Plain node) :
    (supply waiting node).Plain := by
  induction waiting generalizing node with
  | nil => exact hnode
  | cons first outer ih =>
      rw [List.forall_mem_cons] at hwaiting
      obtain ⟨hfirst, houter⟩ := hwaiting
      cases first with
      | quote =>
          apply ih houter
          intro value hvalue
          cases node with
          | error fault => cases hvalue
          | ok inner =>
              cases hvalue
              exact (hnode inner rfl).quote
      | list list => exact List.forall_mem_cons.mpr ⟨plain_addItem hfirst hnode, houter⟩
      | tail list => exact List.forall_mem_cons.mpr ⟨plain_addTail hfirst hnode, houter⟩

/-- A part of an expression that stands for itself. -/
def Part.Plain : Part → Prop
  | .atom node => Node.Plain node
  | _ => True

theorem plain_part? {text rest : List Glyph} {part : Part}
    (hpart : part? text = some (part, rest)) : part.Plain := by
  have hint : ∀ digits, Node.Plain (intNode digits) := by
    intro digits value hvalue
    rw [intNode] at hvalue
    split at hvalue <;> cases hvalue
    trivial
  have hstring : ∀ literal, Node.Plain (stringNode literal) := by
    intro literal value hvalue
    rw [stringNode] at hvalue
    split at hvalue <;> cases hvalue
    trivial
  have hsymbol : ∀ name, Node.Plain (symbolNode name) := by
    rintro name value ⟨⟩
    trivial
  rcases text with _ | ⟨first, behind⟩
  · cases hpart
  · rw [part?] at hpart
    split_ifs at hpart
    · cases hpart
      trivial
    · cases hpart
      trivial
    · cases hpart
      trivial
    · obtain ⟨⟨literal, rest'⟩, _, hfound⟩ := Option.map_eq_some_iff.mp hpart
      cases hfound
      exact hstring literal
    · cases hpart
      exact hint _
    · cases hpart
      exact hsymbol _
    · cases hpart
      trivial
    · cases hpart
      exact hsymbol _

theorem plain_partAfterTail? {text rest : List Glyph} {part : Part}
    (hpart : partAfterTail? text = some (part, rest)) : part.Plain := by
  rcases text with _ | ⟨first, behind⟩
  · cases hpart
  · rw [partAfterTail?] at hpart
    split_ifs at hpart <;>
    · cases hpart
      trivial

theorem plain_take {waiting : List Open} {part : Part} {progress : Progress}
    (hwaiting : ∀ part ∈ waiting, part.Plain) (hpart : part.Plain)
    (htake : take waiting part = some progress) : progress.Plain := by
  cases part with
  | openParen =>
      have hnew : (Open.list .new).Plain := by simp [Open.Plain, OpenList.new]
      cases waiting <;> cases htake <;> exact List.forall_mem_cons.mpr ⟨hnew, hwaiting⟩
  | quote =>
      cases waiting <;> cases htake <;> exact List.forall_mem_cons.mpr ⟨trivial, hwaiting⟩
  | atom node =>
      rw [take_atom] at htake
      cases htake
      exact plain_supply hwaiting hpart
  | closeParen =>
      rcases waiting with _ | ⟨_ | list | _, outer⟩ <;> cases htake
      rw [List.forall_mem_cons] at hwaiting
      exact plain_supply hwaiting.2 (plain_close hwaiting.1)
  | dot =>
      rcases waiting with _ | ⟨_ | list | _, outer⟩ <;> cases htake
      rw [List.forall_mem_cons] at hwaiting
      exact List.forall_mem_cons.mpr hwaiting

/-- The grammar builds plain values of plain ones. -/
theorem plain_matchOver {fuel : Nat} {waiting : List Open} {text rest : List Glyph}
    {node : Node} (hwaiting : ∀ part ∈ waiting, part.Plain)
    (hmatch : matchOver fuel waiting text = some (node, rest)) : Node.Plain node := by
  induction fuel generalizing waiting text with
  | zero => cases hmatch
  | succ fuel ih =>
      rw [matchOver] at hmatch
      split at hmatch
      · cases hmatch
      · next part behind hpart =>
          have hplain : part.Plain := by
            split_ifs at hpart
            · exact plain_partAfterTail? hpart
            · exact plain_part? hpart
          split at hmatch
          · cases hmatch
          · next htake =>
              cases hmatch
              exact plain_take hwaiting hplain htake
          · next htake => exact ih (plain_take hwaiting hplain htake) hmatch

end Grammar

namespace Scannerless

theorem plain_next? {fuel : Nat} {text rest : List Glyph} {value : Value}
    (hnext : next? fuel text = .ok (some (value, rest))) : value.Plain := by
  rw [next?] at hnext
  split at hnext
  · cases hnext
  · split at hnext
    · cases hnext
    · cases hnext
    · next hmatch =>
        cases hnext
        exact Grammar.plain_matchOver (by simp) hmatch value rfl

theorem plain_readAllOver {fuel count : Nat} {found values : List Value} {text : List Glyph}
    (hfound : ∀ value ∈ found, value.Plain)
    (hread : readAllOver fuel count found text = .ok values) :
    ∀ value ∈ values, value.Plain := by
  induction count generalizing found text with
  | zero =>
      cases hread
      exact fun value hmem => hfound value (List.mem_reverse.mp hmem)
  | succ count ih =>
      rw [readAllOver] at hread
      split at hread
      · cases hread
      · cases hread
        exact fun value hmem => hfound value (List.mem_reverse.mp hmem)
      · next hnext => exact ih (List.forall_mem_cons.mpr ⟨plain_next? hnext, hfound⟩) hread

theorem plain_readAll {limit : Int} {file text : Bytes} {values : List Value}
    (hread : readAll limit file text = .ok values) : ∀ value ∈ values, value.Plain := by
  cases hcheck : check limit file text with
  | error error =>
      rw [readAll, hcheck] at hread
      cases hread
  | ok =>
      rw [readAll, hcheck] at hread
      exact plain_readAllOver (by simp) (eq_ok_of_mapError hread)

theorem plain_readFirst {limit : Int} {file text : Bytes} {value : Value}
    (hread : readFirst limit file text = .ok value) : value.Plain := by
  cases hcheck : check limit file text with
  | error error =>
      rw [readFirst, hcheck] at hread
      cases hread
  | ok =>
      simp only [readFirst, hcheck, bind, Except.bind] at hread
      split at hread
      · cases hread
      · cases hread
        trivial
      · next hnext =>
          cases hread
          exact plain_next? hnext

end Scannerless

namespace Reader

/-- Every expression that is read from a stream is plain. -/
theorem plain_readProgram {reader : Reader} {file : Bytes} {source : Source}
    {values : List Value} (hread : reader.readProgram file source = .ok values) :
    ∀ value ∈ values, value.Plain := by
  cases htext : source.readAll with
  | error failure =>
      rw [readProgram, htext] at hread
      cases hread
  | ok text =>
      rw [readProgram, htext] at hread
      have hall : reader.readAll file text = .ok values := eq_ok_of_mapError hread
      cases reader with
      | tokens => exact TokenReader.plain_readAll hall
      | scannerless => exact Scannerless.plain_readAll hall

theorem plain_read {reader : Reader} {text : Bytes} {value : Value}
    (hread : reader.read text = .ok value) : value.Plain := by
  have hfirst : reader.readFirst text = .ok value := eq_ok_of_mapError hread
  cases reader with
  | tokens => exact TokenReader.plain_readFirst hfirst
  | scannerless => exact Scannerless.plain_readFirst hfirst

end Reader

end MiniLisp
