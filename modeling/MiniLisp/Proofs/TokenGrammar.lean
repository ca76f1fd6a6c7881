import MiniLisp.Proofs.Lexing
import MiniLisp.Reader.Tokens

/-!
The language of the token reader.  `Phrase` is the grammar of expressions over
tokens, with the value of each and with the limit on how deeply lists and quotes
nest.  Reading a text succeeds exactly on the programs of this grammar: the open
forms of the reader are always the beginning of a derivation, and every derivation
can be read.
-/

namespace MiniLisp

/-- Whether a list or quote may stand inside of `outer` others. -/
def Admits (limit : Int) (outer : Nat) : Prop :=
  0 < limit → (outer : Int) ≤ limit - 1

mutual

/-- `Phrase limit outer tokens value`: inside of `outer` lists and quotes, the tokens
are an expression that reads as the value. -/
inductive Phrase (limit : Int) : (outer : Nat) → List Token → Value → Prop
  | int {outer : Nat} {token : Token} {n : Int} (hkind : token.kind = .int)
      (hvalue : readInt? token.text = some n)
      (hrange : -9223372036854775808 ≤ n ∧ n ≤ 9223372036854775807) :
      Phrase limit outer [token] (.int (Int64.ofInt n))
  | string {outer : Nat} {token : Token} {content : Bytes} (hkind : token.kind = .string)
      (hvalue : Literal.unquote token.text = .ok content) :
      Phrase limit outer [token] (.text content)
  | symbol {outer : Nat} {token : Token} (hkind : token.kind = .symbol) :
      Phrase limit outer [token] (.symbol (.intern token.text))
  | quote {outer : Nat} {token : Token} {tokens : List Token} {value : Value}
      (hkind : token.kind = .quote) (hadmits : Admits limit outer)
      (hquoted : Phrase limit (outer + 1) tokens value) :
      Phrase limit outer (token :: tokens) value.quote
  | list {outer : Nat} {opener closer : Token} {tokens : List Token} {values : List Value}
      (hopener : opener.kind = .openParen) (hadmits : Admits limit outer)
      (hitems : Phrases limit (outer + 1) tokens values)
      (hcloser : closer.kind = .closeParen) :
      Phrase limit outer (opener :: (tokens ++ [closer])) (.ofList values)
  | dotted {outer : Nat} {opener dot closer : Token} {tokens tailTokens : List Token}
      {values : List Value} {tail : Value}
      (hopener : opener.kind = .openParen) (hadmits : Admits limit outer)
      (hitems : Phrases limit (outer + 1) tokens values) (hvalues : values ≠ [])
      (hdot : dot.kind = .dot) (htail : Phrase limit (outer + 1) tailTokens tail)
      (hcloser : closer.kind = .closeParen) :
      Phrase limit outer (opener :: (tokens ++ dot :: (tailTokens ++ [closer])))
        (.ofSpine values tail)

/-- The tokens are expressions one after the other that read as the values. -/
inductive Phrases (limit : Int) : (outer : Nat) → List Token → List Value → Prop
  | nil {outer : Nat} : Phrases limit outer [] []
  | cons {outer : Nat} {first rest : List Token} {value : Value} {values : List Value}
      (hfirst : Phrase limit outer first value) (hrest : Phrases limit outer rest values) :
      Phrases limit outer (first ++ rest) (value :: values)

end

theorem Phrases.append {limit : Int} {outer : Nat} {first rest : List Token}
    {values values' : List Value} (hfirst : Phrases limit outer first values)
    (hrest : Phrases limit outer rest values') :
    Phrases limit outer (first ++ rest) (values ++ values') := by
  induction values generalizing first with
  | nil =>
      cases hfirst
      exact hrest
  | cons value values ih =>
      cases hfirst with
      | cons hvalue hvalues =>
          rw [List.append_assoc, List.cons_append]
          exact .cons hvalue (ih hvalues)

theorem Phrases.snoc {limit : Int} {outer : Nat} {first last : List Token}
    {values : List Value} {value : Value} (hfirst : Phrases limit outer first values)
    (hlast : Phrase limit outer last value) :
    Phrases limit outer (first ++ last) (values ++ [value]) := by
  have hsingle : Phrases limit outer (last ++ []) [value] := .cons hlast .nil
  rw [List.append_nil] at hsingle
  exact hfirst.append hsingle

theorem readInt64?_eq_some_iff {text : Bytes} {m : Int64} :
    readInt64? text = some m ↔ ∃ n, readInt? text = some n ∧
      (-9223372036854775808 ≤ n ∧ n ≤ 9223372036854775807) ∧ m = Int64.ofInt n := by
  rw [readInt64?]
  cases readInt? text with
  | none => simp
  | some n =>
      by_cases hrange : -9223372036854775808 ≤ n ∧ n ≤ 9223372036854775807
      · simp [hrange, eq_comm]
      · simp [hrange]

namespace Nest

/-- Whether the innermost open form can take an expression.  One that has its tail
waits for nothing but its end. -/
def Expects : (forms : List OpenForm) → Prop
  | .close _ _ _ :: _ => False
  | _ => True

/-- The tokens that start an expression are taken alike by all forms that expect one. -/
theorem step_eq_expression {limit : Int} {nest : Nest} {token : Token}
    (hexpects : Expects nest.forms) (hclose : token.kind ≠ .closeParen)
    (hdot : token.kind ≠ .dot) : nest.step limit token = nest.expression limit token := by
  obtain ⟨depth, forms⟩ := nest
  cases forms with
  | nil => rfl
  | cons form outer =>
      cases form with
      | quote => rfl
      | items opener done =>
          cases hkind : token.kind <;> simp_all [step]
      | tail opener done =>
          cases hkind : token.kind <;> simp_all [step]
      | close opener done tail => exact hexpects.elim

/-- A comment changes nothing. -/
theorem step_comment {limit : Int} {nest : Nest} {token : Token}
    (hkind : token.kind = .comment) : nest.step limit token = .more nest := by
  obtain ⟨depth, forms⟩ := nest
  cases forms with
  | nil => simp [step, expression, hkind]
  | cons form outer => cases form <;> simp [step, expression, hkind]

theorem enter_eq_more {limit : Int} {outer : Nat} {forms : List OpenForm}
    (hadmits : Admits limit outer) (form : OpenForm) (token : Token) :
    enter limit ⟨outer, forms⟩ form token = .more ⟨outer + 1, form :: forms⟩ := by
  have hwithin : ¬(0 < limit ∧ limit < outer + 1) := by
    rintro ⟨hpos, hlt⟩
    have := hadmits hpos
    omega
  rw [enter, if_neg hwithin]

end Nest

namespace TokenReader

/-- What reading all expressions comes to after one token. -/
def continueAll (reader : TokenReader) (rest : List Token) (found : List Value) :
    Nest.Progress → Except ReadError (List Value)
  | .more nest => (readAllOver reader rest nest found).1
  | .done value => (readAllOver reader rest .top (value :: found)).1
  | .fault error => .error error

theorem continueAll_more (reader : TokenReader) (rest : List Token) (found : List Value)
    (nest : Nest) :
    reader.continueAll rest found (.more nest) = (readAllOver reader rest nest found).1 :=
  rfl

theorem readAllOver_cons (reader : TokenReader) (token : Token) (rest : List Token)
    (nest : Nest) (found : List Value) :
    (readAllOver reader (token :: rest) nest found).1 =
      reader.continueAll rest found (nest.step reader.limit token) := by
  rw [readAllOver]
  cases nest.step reader.limit token <;> rfl

def withoutComments (tokens : List Token) : List Token :=
  tokens.filter (·.kind ≠ .comment)

theorem readAllOver_withoutComments (reader : TokenReader) (tokens : List Token)
    (nest : Nest) (found : List Value) :
    (readAllOver reader tokens nest found).1 =
      (readAllOver reader (withoutComments tokens) nest found).1 := by
  induction tokens generalizing nest found with
  | nil => rfl
  | cons token tokens ih =>
      by_cases hkind : token.kind = .comment
      · have hskip : withoutComments (token :: tokens) = withoutComments tokens := by
          simp [withoutComments, hkind]
        rw [hskip, readAllOver_cons, Nest.step_comment hkind]
        exact ih nest found
      · have hkeep : withoutComments (token :: tokens) = token :: withoutComments tokens := by
          simp [withoutComments, hkind]
        rw [hkeep, readAllOver_cons, readAllOver_cons]
        cases nest.step reader.limit token with
        | more nest => exact ih nest found
        | done value => exact ih .top (value :: found)
        | fault error => rfl

/-- Where an expression is expected, a quote or parenthesis opens a form. -/
theorem readAllOver_open {reader : TokenReader} {outer : Nat} {forms : List OpenForm}
    {token : Token} {form : OpenForm} (hexpects : Nest.Expects forms)
    (hadmits : Admits reader.limit outer)
    (hform : token.kind = .quote ∧ form = .quote ∨
      token.kind = .openParen ∧ form = .items token [])
    (rest : List Token) (found : List Value) :
    (readAllOver reader (token :: rest) ⟨outer, forms⟩ found).1 =
      (readAllOver reader rest ⟨outer + 1, form :: forms⟩ found).1 := by
  have hopen : Nest.step reader.limit ⟨outer, forms⟩ token =
      .more ⟨outer + 1, form :: forms⟩ := by
    rcases hform with ⟨hkind, rfl⟩ | ⟨hkind, rfl⟩
    · rw [Nest.step_eq_expression hexpects (by simp [hkind]) (by simp [hkind])]
      simp only [Nest.expression, hkind, Nest.enter_eq_more hadmits .quote]
    · rw [Nest.step_eq_expression hexpects (by simp [hkind]) (by simp [hkind])]
      simp only [Nest.expression, hkind, Nest.enter_eq_more hadmits (.items token [])]
  rw [readAllOver_cons, hopen]
  rfl

mutual

/-- Every derivation of an expression can be read: its value reaches the form that
expects it. -/
theorem readAllOver_phrase {reader : TokenReader} {outer : Nat} {tokens : List Token}
    {value : Value} (hphrase : Phrase reader.limit outer tokens value) (rest : List Token)
    {forms : List OpenForm} (hexpects : Nest.Expects forms) (found : List Value) :
    (readAllOver reader (tokens ++ rest) ⟨outer, forms⟩ found).1 =
      reader.continueAll rest found (Nest.supply outer forms value) := by
  match hphrase with
  | .int hkind hvalue hrange =>
      rw [List.singleton_append, readAllOver_cons,
        Nest.step_eq_expression hexpects (by simp [hkind]) (by simp [hkind])]
      have hread := readInt64?_eq_some_iff.mpr ⟨_, hvalue, hrange, rfl⟩
      simp only [Nest.expression, hkind, hread]
  | .string hkind hvalue =>
      rw [List.singleton_append, readAllOver_cons,
        Nest.step_eq_expression hexpects (by simp [hkind]) (by simp [hkind])]
      simp only [Nest.expression, hkind, hvalue]
  | .symbol hkind =>
      rw [List.singleton_append, readAllOver_cons,
        Nest.step_eq_expression hexpects (by simp [hkind]) (by simp [hkind])]
      simp only [Nest.expression, hkind]
  | .quote hkind hadmits hquoted =>
      have hinner : Nest.Expects (.quote :: forms) := trivial
      rw [List.cons_append, readAllOver_open hexpects hadmits (.inl ⟨hkind, rfl⟩),
        readAllOver_phrase hquoted rest hinner found]
      rfl
  | .list hopener hadmits hitems hcloser =>
      rw [List.cons_append, List.append_assoc, List.singleton_append,
        readAllOver_open hexpects hadmits (.inr ⟨hopener, rfl⟩),
        readAllOver_phrases hitems, readAllOver_cons]
      simp [Nest.step, hcloser]
  | .dotted hopener hadmits hitems hvalues hdot htail hcloser =>
      have hinner : ∀ opener done, Nest.Expects (.tail opener done :: forms) :=
        fun _ _ => trivial
      rw [List.cons_append, List.append_assoc, List.cons_append, List.append_assoc,
        List.singleton_append, readAllOver_open hexpects hadmits (.inr ⟨hopener, rfl⟩),
        readAllOver_phrases hitems, readAllOver_cons]
      simp only [Nest.step, hdot, List.append_nil, List.isEmpty_reverse, List.isEmpty_iff,
        hvalues, ↓reduceIte]
      rw [continueAll_more, readAllOver_phrase htail _ (hinner _ _) found, Nest.supply,
        continueAll_more, readAllOver_cons]
      simp [Nest.step, hcloser]

/-- Every derivation of the items of a list can be read. -/
theorem readAllOver_phrases {reader : TokenReader} {outer : Nat} {tokens : List Token}
    {values : List Value} (hphrases : Phrases reader.limit outer tokens values)
    (rest : List Token) {opener : Token} (done : List Value) {forms : List OpenForm}
    (found : List Value) :
    (readAllOver reader (tokens ++ rest) ⟨outer, .items opener done :: forms⟩ found).1 =
      (readAllOver reader rest ⟨outer, .items opener (values.reverse ++ done) :: forms⟩
        found).1 := by
  match hphrases with
  | .nil => rfl
  | .cons hfirst hrest =>
      have hexpects : Nest.Expects (.items opener done :: forms) := trivial
      rw [List.append_assoc, readAllOver_phrase hfirst _ hexpects found, Nest.supply,
        continueAll_more, readAllOver_phrases hrest rest _ found]
      simp

end

end TokenReader

namespace Nest

/-- The open forms are the beginning of a derivation: `taken` are the tokens since the
outermost of them was opened. -/
inductive Opened (limit : Int) : (forms : List OpenForm) → (taken : List Token) → Prop
  | top : Opened limit [] []
  | quote {forms : List OpenForm} {taken : List Token} {token : Token}
      (houter : Opened limit forms taken) (hexpects : Expects forms)
      (hkind : token.kind = .quote) (hadmits : Admits limit forms.length) :
      Opened limit (.quote :: forms) (taken ++ [token])
  | items {forms : List OpenForm} {taken tokens : List Token} {opener : Token}
      {done : List Value} (houter : Opened limit forms taken) (hexpects : Expects forms)
      (hopener : opener.kind = .openParen) (hadmits : Admits limit forms.length)
      (hitems : Phrases limit (forms.length + 1) tokens done.reverse) :
      Opened limit (.items opener done :: forms) (taken ++ opener :: tokens)
  | tail {forms : List OpenForm} {taken tokens : List Token} {opener dot : Token}
      {done : List Value} (houter : Opened limit forms taken) (hexpects : Expects forms)
      (hopener : opener.kind = .openParen) (hadmits : Admits limit forms.length)
      (hitems : Phrases limit (forms.length + 1) tokens done.reverse) (hdone : done ≠ [])
      (hdot : dot.kind = .dot) :
      Opened limit (.tail opener done :: forms) (taken ++ opener :: (tokens ++ [dot]))
  | close {forms : List OpenForm} {taken tokens tailTokens : List Token}
      {opener dot : Token} {done : List Value} {tail : Value}
      (houter : Opened limit forms taken) (hexpects : Expects forms)
      (hopener : opener.kind = .openParen) (hadmits : Admits limit forms.length)
      (hitems : Phrases limit (forms.length + 1) tokens done.reverse) (hdone : done ≠ [])
      (hdot : dot.kind = .dot) (htail : Phrase limit (forms.length + 1) tailTokens tail) :
      Opened limit (.close opener done tail :: forms)
        (taken ++ opener :: (tokens ++ dot :: tailTokens))

/-- Where the tokens taken so far lead, if they lead on at all. -/
def Sound (limit : Int) (taken : List Token) : Progress → Prop
  | .more nest => nest.depth = nest.forms.length ∧ Opened limit nest.forms taken
  | .done value => Phrase limit 0 taken value
  | .fault _ => True

/-- A value that some tokens derive can be supplied to the form that expects it. -/
theorem sound_supply {limit : Int} {forms : List OpenForm} {taken tokens : List Token}
    {value : Value} (hopened : Opened limit forms taken) (hexpects : Expects forms)
    (hvalue : Phrase limit forms.length tokens value) :
    Sound limit (taken ++ tokens) (supply forms.length forms value) := by
  induction forms generalizing taken tokens value with
  | nil =>
      cases hopened
      exact hvalue
  | cons form forms ih =>
      cases hopened with
      | quote houter hexpects hkind hadmits =>
          rw [List.append_assoc, List.singleton_append, supply]
          exact ih houter hexpects (.quote hkind hadmits hvalue)
      | items houter hexpects hopener hadmits hitems =>
          rw [List.append_assoc, List.cons_append]
          refine ⟨rfl, .items houter hexpects hopener hadmits ?_⟩
          rw [List.reverse_cons]
          exact hitems.snoc hvalue
      | tail houter hexpects hopener hadmits hitems hdone hdot =>
          rw [List.append_assoc, List.cons_append, List.append_assoc,
            List.singleton_append]
          exact ⟨rfl, .close houter hexpects hopener hadmits hitems hdone hdot hvalue⟩
      | close => exact hexpects.elim

/-- A list ends, and its value goes to the form around it. -/
theorem sound_step_close {limit : Int} {depth : Nat} {form : OpenForm}
    {forms : List OpenForm} {taken : List Token} {token : Token}
    (hopened : Opened limit (form :: forms) taken) (hdepth : depth = forms.length + 1)
    (hkind : token.kind = .closeParen) :
    Sound limit (taken ++ [token]) (step limit ⟨depth, form :: forms⟩ token) := by
  subst hdepth
  cases hopened with
  | quote houter hexpects =>
      simp only [step, expression, hkind]
      trivial
  | items houter hexpects hopener hadmits hitems =>
      simp only [step, hkind, Nat.add_sub_cancel]
      rw [List.append_assoc, List.cons_append]
      exact sound_supply houter hexpects (.list hopener hadmits hitems hkind)
  | tail houter hexpects =>
      simp only [step, hkind]
      trivial
  | close houter hexpects hopener hadmits hitems hdone hdot htail =>
      simp only [step, hkind, Nat.add_sub_cancel]
      rw [List.append_assoc, List.cons_append, List.append_assoc, List.cons_append]
      exact sound_supply houter hexpects
        (.dotted hopener hadmits hitems (by simpa using hdone) hdot htail hkind)

/-- A dot stands behind the items of a list, and nowhere else. -/
theorem sound_step_dot {limit : Int} {depth : Nat} {form : OpenForm}
    {forms : List OpenForm} {taken : List Token} {token : Token}
    (hopened : Opened limit (form :: forms) taken) (hdepth : depth = forms.length + 1)
    (hkind : token.kind = .dot) :
    Sound limit (taken ++ [token]) (step limit ⟨depth, form :: forms⟩ token) := by
  subst hdepth
  cases hopened with
  | quote houter hexpects =>
      simp only [step, expression, hkind]
      trivial
  | items houter hexpects hopener hadmits hitems =>
      simp only [step, hkind, List.isEmpty_iff]
      split_ifs with hdone
      · trivial
      · rw [List.append_assoc, List.cons_append]
        exact ⟨rfl, .tail houter hexpects hopener hadmits hitems hdone hkind⟩
  | tail houter hexpects =>
      simp only [step, expression, hkind]
      trivial
  | close houter hexpects =>
      simp only [step, hkind]
      trivial

theorem sound_enter {limit : Int} {forms : List OpenForm} {taken : List Token}
    {form : OpenForm} {token : Token}
    (hform : Admits limit forms.length → Opened limit (form :: forms) taken) :
    Sound limit taken (enter limit ⟨forms.length, forms⟩ form token) := by
  rw [enter]
  split_ifs with hover
  · trivial
  · refine ⟨rfl, hform fun hpos => ?_⟩
    have hle : ¬limit < (forms.length : Int) + 1 := fun hlt => hover ⟨hpos, hlt⟩
    omega

/-- A token where an expression is expected is one, starts one or is a fault. -/
theorem sound_expression {limit : Int} {forms : List OpenForm} {taken : List Token}
    {token : Token} (hopened : Opened limit forms taken) (hexpects : Expects forms)
    (hcomment : token.kind ≠ .comment) :
    Sound limit (taken ++ [token]) (expression limit ⟨forms.length, forms⟩ token) := by
  rw [expression]
  split
  · next hkind => exact absurd hkind hcomment
  · next hkind =>
      split
      · next n hread =>
          obtain ⟨m, hvalue, hrange, rfl⟩ := readInt64?_eq_some_iff.mp hread
          exact sound_supply hopened hexpects (.int hkind hvalue hrange)
      · trivial
  · next hkind =>
      split
      · next content hvalue => exact sound_supply hopened hexpects (.string hkind hvalue)
      · trivial
  · next hkind => exact sound_supply hopened hexpects (.symbol hkind)
  · next hkind => exact sound_enter fun hadmits => .quote hopened hexpects hkind hadmits
  · next hkind => exact sound_enter fun hadmits => .items hopened hexpects hkind hadmits .nil
  · trivial
  · trivial

/-- One step: what was the beginning of a derivation stays one. -/
theorem sound_step {limit : Int} {nest : Nest} {taken : List Token} {token : Token}
    (hdepth : nest.depth = nest.forms.length) (hopened : Opened limit nest.forms taken)
    (hcomment : token.kind ≠ .comment) :
    Sound limit (taken ++ [token]) (nest.step limit token) := by
  obtain ⟨depth, forms⟩ := nest
  simp only at hdepth hopened
  subst hdepth
  cases forms with
  | nil => exact sound_expression hopened trivial hcomment
  | cons form forms =>
      by_cases hclose : token.kind = .closeParen
      · exact sound_step_close hopened rfl hclose
      · by_cases hdot : token.kind = .dot
        · exact sound_step_dot hopened rfl hdot
        · by_cases hexpects : Expects (form :: forms)
          · rw [step_eq_expression hexpects hclose hdot]
            exact sound_expression hopened hexpects hcomment
          · cases form with
            | close opener done tail => cases hkind : token.kind <;> simp_all [step, Sound]
            | _ => exact absurd trivial hexpects

end Nest

namespace TokenReader

/-- A whole run: what is read has a derivation. -/
theorem phrases_of_readAllOver {reader : TokenReader} {tokens taken : List Token}
    {nest : Nest} {found values : List Value} (hcomments : ∀ token ∈ tokens, token.kind ≠ .comment)
    (hdepth : nest.depth = nest.forms.length)
    (hopened : Nest.Opened reader.limit nest.forms taken)
    (hread : (readAllOver reader tokens nest found).1 = .ok values) :
    reader.ending.fault = none ∧
      ∃ later, values = found.reverse ++ later ∧
        Phrases reader.limit 0 (taken ++ tokens) later := by
  -- The tokens taken so far are always the beginning of a derivation, see `Opened`.
  induction tokens generalizing nest taken found with
  | nil =>
      rw [readAllOver] at hread
      split_ifs at hread with hend
      · obtain ⟨hforms, hfault⟩ := hend
        rw [List.isEmpty_iff] at hforms
        rw [hforms] at hopened
        cases hopened
        cases hread
        exact ⟨hfault, [], by simp, .nil⟩
  | cons token tokens ih =>
      have hkind : token.kind ≠ .comment := hcomments token (by simp)
      have hlater : ∀ later ∈ tokens, later.kind ≠ .comment :=
        fun later hmem => hcomments later (by simp [hmem])
      have hsound := Nest.sound_step hdepth hopened hkind
      rw [readAllOver_cons] at hread
      cases hstep : nest.step reader.limit token with
      | more after =>
          rw [hstep] at hread hsound
          obtain ⟨hfault, later, hvalues, hphrases⟩ := ih hlater hsound.1 hsound.2 hread
          refine ⟨hfault, later, hvalues, ?_⟩
          simpa using hphrases
      | done value =>
          rw [hstep] at hread hsound
          obtain ⟨hfault, later, hvalues, hphrases⟩ := ih hlater rfl .top hread
          refine ⟨hfault, value :: later, by simpa using hvalues, ?_⟩
          have hall := Phrases.cons hsound hphrases
          simpa using hall
      | fault error =>
          rw [hstep] at hread
          exact absurd hread (by simp [continueAll])

theorem readAllOver_program {reader : TokenReader} {tokens : List Token}
    {values : List Value} (hphrases : Phrases reader.limit 0 tokens values)
    (hfault : reader.ending.fault = none) (found : List Value) :
    (readAllOver reader tokens .top found).1 = .ok (found.reverse ++ values) := by
  induction values generalizing tokens found with
  | nil =>
      cases hphrases
      simp [readAllOver, Nest.top, hfault]
  | cons value values ih =>
      cases hphrases with
      | cons hfirst hrest =>
          have hexpects : Nest.Expects [] := trivial
          rw [Nest.top, readAllOver_phrase hfirst _ hexpects found]
          simpa [Nest.supply, continueAll] using ih hrest (value :: found)

/-- Reading a text succeeds exactly if its tokens end without a fault and are, apart
from comments, a sequence of expressions within the limit; the values read are theirs. -/
theorem readAll_eq_ok_iff (file text : Bytes) (limit : Int) (values : List Value) :
    (ofBytes file text limit).readAll.1 = .ok values ↔
      ∃ tokens last, Lexer.Yields (.ofBytes file text) tokens last ∧
        last.kind = .endOfInput ∧ Phrases limit 0 (withoutComments tokens) values := by
  obtain ⟨hyields, _, hhonest⟩ := Lexer.tokens_ofBytes file text
  have hrun : (ofBytes file text limit).readAll.1 =
      (readAllOver (ofBytes file text limit)
        (withoutComments (Lexer.ofBytes file text).tokens.1) .top []).1 :=
    readAllOver_withoutComments _ _ _ _
  rw [hrun]
  constructor
  · intro hread
    have hcomments : ∀ token ∈ withoutComments (Lexer.ofBytes file text).tokens.1,
        token.kind ≠ .comment := by
      simp [withoutComments]
    obtain ⟨hfault, later, hvalues, hphrases⟩ :=
      phrases_of_readAllOver hcomments rfl .top hread
    refine ⟨_, _, hyields, hhonest.mp hfault, ?_⟩
    rw [hvalues]
    exact hphrases
  · rintro ⟨tokens, last, hyields', hlast, hphrases⟩
    obtain ⟨rfl, rfl⟩ := hyields'.unique hyields
    exact readAllOver_program hphrases (hhonest.mpr hlast) []

end TokenReader

end MiniLisp
