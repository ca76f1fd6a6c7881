import Mathlib.Data.List.Forall2
import Mathlib.Data.List.TakeWhile
import MiniLisp.Proofs.Encoding
import MiniLisp.Proofs.UpperCase
import MiniLisp.Suggestion
import MiniLisp.Symbol

/-!
Suggestions.  What completes the symbol under the cursor is one suffix for every bound
name that goes on behind what is typed.  Names are compared byte by byte and in upper case,
suffixes are cut off by bytes and may be put in lower case; but bytes of whole characters
part only between characters, so a suffix behind what is typed denotes the symbol again.
-/

namespace MiniLisp

/-! ### Bytes of whole characters -/

theorem encode_injective {chars chars' : List Char} (heq : encode chars = encode chars') :
    chars = chars' := by
  have hglyphs := congrArg glyphs heq
  rw [glyphs_encode, glyphs_encode] at hglyphs
  exact List.map_injective_iff.mpr (fun _ _ => Glyph.char.inj) hglyphs

/-- Bytes of characters in front of bytes of characters leave bytes of characters. -/
theorem exists_encode_of_append {chars front : List Char} {rest : Bytes}
    (heq : encode chars = encode front ++ rest) :
    ∃ back, rest = encode back ∧ chars = front ++ back := by
  have hglyphs := congrArg glyphs heq
  rw [glyphs_encode, glyphs_encode_append] at hglyphs
  obtain ⟨front', back, rfl, hfront, -⟩ := List.map_eq_append_iff.mp hglyphs
  obtain rfl : front' = front :=
    List.map_injective_iff.mpr (fun _ _ => Glyph.char.inj) hfront
  rw [encode_append] at heq
  exact ⟨back, (List.append_cancel_left heq).symm, rfl⟩

theorem exists_encode_mapChars (f : Char → Char) (text : Bytes) :
    ∃ chars, mapChars f text = encode chars := by
  refine ⟨(glyphs text).map fun glyph => f glyph.toChar, ?_⟩
  rw [mapChars, encode, List.flatMap_map]

/-- A name that comes back from lower case is one of characters that come back. -/
theorem exists_encode_of_upcase_downcase {name : Bytes}
    (hname : upcase (downcase name) = name) :
    ∃ chars, name = encode chars ∧ ∀ c ∈ chars, upperChar (lowerChar c) = c := by
  obtain ⟨chars, hchars⟩ := exists_encode_mapChars upperChar (downcase name)
  obtain rfl : name = encode chars := hname.symm.trans hchars
  refine ⟨chars, rfl, ?_⟩
  rw [downcase, mapChars_encode, upcase, mapChars_encode, List.map_map] at hname
  exact List.map_inj_left.mp ((encode_injective hname).trans (List.map_id chars).symm)

namespace Suggestion

/-! ### What is typed -/

/-- What is typed before a cursor: the longest run of symbol characters that ends there. -/
structure TypedAt (line : List Char) (cursor : Nat) (typed : List Char) : Prop where
  symbolChars : ∀ c ∈ typed, isSymbolChar c = true
  longest : ∃ before, line.take cursor = before ++ typed ∧
    ∀ c ∈ before.getLast?, isSymbolChar c = false

theorem typedAt_iff {line : List Char} {cursor : Nat} {start : List Char} :
    TypedAt line cursor start ↔ start = typed (line.take cursor) := by
  constructor
  · rintro ⟨hchars, before, hbefore, hlast⟩
    have hrun : before.reverse.takeWhile isSymbolChar = [] := by
      rw [← List.head?_reverse] at hlast
      cases hreverse : before.reverse with
      | nil => rfl
      | cons last earlier =>
          have hnot : isSymbolChar last = false := hlast last (by rw [hreverse]; rfl)
          rw [List.takeWhile_cons, hnot]
          rfl
    rw [typed, hbefore, List.reverse_append, List.takeWhile_append_of_pos (by simpa using hchars),
      hrun, List.append_nil, List.reverse_reverse]
  · rintro rfl
    refine ⟨?_, ((line.take cursor).reverse.dropWhile isSymbolChar).reverse, ?_, ?_⟩
    · intro c hc
      rw [typed, List.mem_reverse] at hc
      exact List.mem_takeWhile_imp hc
    · rw [typed, ← List.reverse_append, List.takeWhile_append_dropWhile, List.reverse_reverse]
    · intro c hc
      rw [List.getLast?_reverse] at hc
      have hnot := List.head?_dropWhile_not isSymbolChar (line.take cursor).reverse
      rw [hc] at hnot
      exact hnot

/-! ### Suffixes -/

/-- The name of a symbol goes on behind a beginning. -/
def Extends (start : Bytes) (symbol : Symbol) : Prop :=
  start <+: symbol.name ∧ start ≠ symbol.name

instance (start : Bytes) (symbol : Symbol) : Decidable (Extends start symbol) :=
  inferInstanceAs (Decidable (_ ∧ _))

/-- There is a suffix for the names that go on, and it is what they go on with. -/
theorem suffix?_eq_some_iff {start name rest : Bytes} :
    suffix? start name = some rest ↔ name = start ++ rest ∧ rest ≠ [] := by
  rw [suffix?, Option.ite_none_right_eq_some, Bool.and_eq_true, decide_eq_true_eq,
    List.isPrefixOf_iff_prefix, Option.some.injEq]
  constructor
  · rintro ⟨⟨hlength, more, rfl⟩, rfl⟩
    rw [List.drop_left]
    refine ⟨rfl, ?_⟩
    rintro rfl
    simp at hlength
  · rintro ⟨rfl, hmore⟩
    have hlength := List.length_pos_of_ne_nil hmore
    refine ⟨⟨?_, rest, rfl⟩, List.drop_left⟩
    rw [List.length_append]
    omega

theorem extends_iff {start : Bytes} {symbol : Symbol} :
    Extends start symbol ↔ (suffix? start symbol.name).isSome = true := by
  rw [Option.isSome_iff_exists, Extends]
  simp only [suffix?_eq_some_iff]
  constructor
  · rintro ⟨⟨rest, hrest⟩, hne⟩
    refine ⟨rest, hrest.symm, ?_⟩
    rintro rfl
    exact hne (by rw [← hrest, List.append_nil])
  · rintro ⟨rest, hname, hmore⟩
    refine ⟨⟨rest, hname.symm⟩, fun hstart => hmore ?_⟩
    rw [← hstart] at hname
    exact List.self_eq_append_right.mp hname

/-- Behind what is typed, the suffix of a name denotes the symbol of that name, as it is and
in lower case. -/
theorem intern_append_suffix {symbol : Symbol} {start : List Char} {rest : Bytes}
    (hname : upcase (downcase symbol.name) = symbol.name)
    (hrest : symbol.name = upcase (encode start) ++ rest) :
    Symbol.intern (encode start ++ rest) = symbol ∧
      Symbol.intern (encode start ++ downcase rest) = symbol := by
  obtain ⟨chars, hchars, hstable⟩ := exists_encode_of_upcase_downcase hname
  rw [hchars, upcase, mapChars_encode] at hrest
  obtain ⟨back, rfl, rfl⟩ := exists_encode_of_append hrest
  have hlower : back.map (upperChar ∘ lowerChar) = back := by
    refine (List.map_congr_left fun c hc => ?_).trans (List.map_id back)
    exact hstable c (List.mem_append_right _ hc)
  -- What comes back from lower case is in upper case.
  have hupper : back.map upperChar = back := by
    rw [← hlower, List.map_map]
    apply List.map_congr_left
    intro c _
    simp only [Function.comp_apply, upperChar_upperChar]
  have hintern : ∀ ending, ending.map upperChar = back →
      Symbol.intern (encode start ++ encode ending) = symbol := by
    intro ending hending
    rw [Symbol.intern, upcase, ← encode_append, mapChars_encode, List.map_append, hending,
      ← hchars]
  refine ⟨hintern back hupper, ?_⟩
  rw [downcase, mapChars_encode]
  exact hintern _ (by rwa [List.map_map])

/-- Filtering a list and picking out images of what stays go along with each other. -/
theorem forall₂_filter_filterMap {α β : Type} {R : α → β → Prop} {p : α → Bool}
    {f : α → Option β} {xs : List α} (hp : ∀ x ∈ xs, p x = (f x).isSome)
    (hR : ∀ x ∈ xs, ∀ y, f x = some y → R x y) :
    List.Forall₂ R (xs.filter p) (xs.filterMap f) := by
  induction xs with
  | nil => exact .nil
  | cons x xs ih =>
      have hrest := ih (fun x hx => hp x (.tail _ hx)) (fun x hx => hR x (.tail _ hx))
      have hx := hp x (.head _)
      cases hf : f x with
      | none =>
          rw [hf] at hx
          rw [List.filter_cons_of_neg (by simp [hx]), List.filterMap_cons_none hf]
          exact hrest
      | some y =>
          rw [hf] at hx
          rw [List.filter_cons_of_pos hx, List.filterMap_cons_some hf]
          exact .cons (hR x (.head _) y hf) hrest

/-- The suffixes are those of the names that go on, in order, and each one denotes its
symbol. -/
theorem suffixes_denote {env : Env} (start : List Char)
    (hnames : ∀ symbol ∈ env.symbols, upcase (downcase symbol.name) = symbol.name) :
    List.Forall₂ (fun symbol suffix => Symbol.intern (encode start ++ suffix) = symbol)
      (env.symbols.filter (Extends (upcase (encode start)))) (suffixes env (encode start)) := by
  have hextends : ∀ symbol : Symbol, decide (Extends (upcase (encode start)) symbol) =
      (suffix? (upcase (encode start)) symbol.name).isSome := by
    intro symbol
    rw [Bool.eq_iff_iff, decide_eq_true_eq]
    exact extends_iff
  have hdenotes : ∀ symbol ∈ env.symbols, ∀ rest,
      suffix? (upcase (encode start)) symbol.name = some rest →
        Symbol.intern (encode start ++ rest) = symbol ∧
          Symbol.intern (encode start ++ downcase rest) = symbol := by
    intro symbol hmem rest hrest
    exact intern_append_suffix (hnames symbol hmem) (suffix?_eq_some_iff.mp hrest).1
  rw [suffixes]
  split
  · rw [List.map_filterMap]
    apply forall₂_filter_filterMap
    · intro symbol _
      rw [hextends, Option.isSome_map]
    · intro symbol hmem suffix hsuffix
      obtain ⟨rest, hrest, rfl⟩ := Option.map_eq_some_iff.mp hsuffix
      exact (hdenotes symbol hmem rest hrest).2
  · apply forall₂_filter_filterMap
    · intro symbol _
      exact hextends symbol
    · intro symbol hmem rest hrest
      exact (hdenotes symbol hmem rest hrest).1

end Suggestion

/-- Suggestions name bound symbols.  At every cursor there is a longest run of symbol
characters that ends there.  If it is empty there are no suggestions; else there is one for
every bound symbol whose name goes on behind the upper-case form of the run, in order of first
definition, and behind the run it denotes that symbol. -/
theorem suggestions_denote_bound_symbols (env : Env) (line : List Char) {cursor : Nat}
    (hcursor : cursor ≤ line.length)
    (hnames : ∀ symbol ∈ env.symbols, upcase (downcase symbol.name) = symbol.name) :
    (∃ typed, Suggestion.TypedAt line cursor typed) ∧
      ∀ typed, Suggestion.TypedAt line cursor typed →
        (typed = [] → suggest? env line cursor = some ([], 0)) ∧
          (typed ≠ [] → ∃ suffixes, suggest? env line cursor = some (suffixes, typed.length) ∧
            List.Forall₂
              (fun symbol suffix => Symbol.intern (encode typed ++ suffix) = symbol)
              (env.symbols.filter (Suggestion.Extends (upcase (encode typed)))) suffixes) := by
  refine ⟨⟨_, Suggestion.typedAt_iff.mpr rfl⟩, ?_⟩
  intro typed htyped
  have hrun := Suggestion.typedAt_iff.mp htyped
  rw [suggest?, if_neg (by omega), ← hrun]
  constructor
  · rintro rfl
    rfl
  · intro hmore
    obtain ⟨first, more, rfl⟩ := List.exists_cons_of_ne_nil hmore
    exact ⟨_, rfl, Suggestion.suffixes_denote _ hnames⟩

/-- An environment that binds three names, two of which begin alike. -/
def suggestionScope : Env :=
  ((Env.empty.define (.intern (utf8 "été")) (.int 1)).define (.intern (utf8 "first"))
    (.int 2)).define (.intern (utf8 "étendue")) (.int 3)

/-- Behind a letter of two bytes in lower case, the suffixes are in lower case and denote
the two symbols. -/
theorem suggestions_denote_bound_symbols_accented :
    ∃ first second, suggest? suggestionScope ['(', 'é'] 2 = some ([first, second], 1) ∧
      Symbol.intern (encode ['é'] ++ first) = .intern (utf8 "ÉTÉ") ∧
      Symbol.intern (encode ['é'] ++ second) = .intern (utf8 "ÉTENDUE") := by
  have htyped : Suggestion.TypedAt ['(', 'é'] 2 ['é'] := by
    refine ⟨List.forall_mem_singleton.mpr (by decide), ['('], rfl, ?_⟩
    rintro c ⟨rfl⟩
    decide
  obtain ⟨suffixes, hsuggest, hdenote⟩ :=
    ((suggestions_denote_bound_symbols suggestionScope ['(', 'é'] (Nat.le_refl 2)
      (by decide +kernel)).2 ['é'] htyped).2 (by decide)
  have hfilter : suggestionScope.symbols.filter (Suggestion.Extends (upcase (encode ['é']))) =
      [.intern (utf8 "ÉTÉ"), .intern (utf8 "ÉTENDUE")] := by decide +kernel
  rw [hfilter] at hdenote
  rcases hdenote with _ | ⟨hfirst, _ | ⟨hsecond, _ | _⟩⟩
  exact ⟨_, _, hsuggest, hfirst, hsecond⟩

/-- The case of what is typed is the case of the suffixes. -/
example :
    suggest? suggestionScope ['é'] 1 = some ([utf8 "té", utf8 "tendue"], 1) ∧
      suggest? suggestionScope ['É', 't'] 2 = some ([utf8 "É", utf8 "ENDUE"], 2) := by
  decide +kernel

end MiniLisp
