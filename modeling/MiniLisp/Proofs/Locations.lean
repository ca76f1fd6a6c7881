import Mathlib.Data.List.Induction
import MiniLisp.Proofs.Encoding
import MiniLisp.Proofs.Lexing

/-!
Places and locations.  A scanner counts bytes, lines and columns glyph by glyph as it goes;
`locate` counts them in the bytes in front of an offset.  Whatever calls a scanner answers,
both find the same location for the token that it is at and for every token that it has
cut off.
-/

namespace MiniLisp

/-! ### Counting in characters and in bytes -/

theorem encode_append_singleton (chars : List Char) (c : Char) :
    encode (chars ++ [c]) = encode chars ++ String.utf8EncodeChar c := by
  rw [encode_append]
  simp [encode]

/-- No byte of another character is a line feed. -/
theorem line_not_mem_utf8EncodeChar {c : Char} (hline : c ≠ '\n') :
    10 ∉ String.utf8EncodeChar c := by
  intro hmem
  rcases utf8EncodeChar_ascii_or_high c with ⟨hascii, hbytes⟩ | ⟨_, hhigh⟩
  · rw [hbytes, List.mem_singleton] at hmem
    have hcode : c.toNat = '\n'.toNat := by
      have hten := congrArg UInt8.toNat hmem
      rw [UInt8.toNat_ofNat_of_lt' (show c.toNat < 256 by omega)] at hten
      exact hten.symm
    exact hline (Char.ofNat_toNat c ▸ hcode ▸ rfl)
  · exact absurd (hhigh 10 hmem) (by decide)

namespace Place

/-- The place behind characters that a text begins with. -/
def behind (chars : List Char) : Place :=
  chars.foldl (fun place c => place.past (.char c)) .start

theorem behind_append_singleton (chars : List Char) (c : Char) :
    behind (chars ++ [c]) = (behind chars).past (.char c) := by
  rw [behind, List.foldl_append]
  rfl

/-- Counting glyph by glyph and counting in the bytes give the same place.  The last line of
the bytes is a line of characters, for a line feed is part of no other character. -/
theorem behind_eq (chars : List Char) :
    ∃ line, ((encode chars).reverse.takeWhile (· != 10)).reverse = encode line ∧
      behind chars = ⟨(encode chars).length, 1 + (encode chars).count 10, 1 + line.length⟩ := by
  induction chars using List.reverseRecOn with
  | nil => exact ⟨[], rfl, rfl⟩
  | append_singleton chars c ih =>
      obtain ⟨line, hline, hbehind⟩ := ih
      rw [behind_append_singleton, hbehind, encode_append_singleton]
      by_cases hc : c = '\n'
      · subst hc
        have hbytes : String.utf8EncodeChar '\n' = [10] := by decide
        refine ⟨[], by simp [hbytes], ?_⟩
        simp [past, Glyph.isChar, Glyph.satisfies, hbytes, Glyph.width, Char.utf8Size]
        omega
      · have hnone := line_not_mem_utf8EncodeChar hc
        refine ⟨line ++ [c], ?_, ?_⟩
        · have hall : ∀ byte ∈ (String.utf8EncodeChar c).reverse, (byte != 10) = true := by
            intro byte hmem
            simp only [bne_iff_ne]
            rintro rfl
            exact hnone (List.mem_reverse.mp hmem)
          rw [List.reverse_append, List.takeWhile_append_of_pos hall, List.reverse_append,
            List.reverse_reverse, hline, encode_append_singleton]
        · have hchar : Glyph.isChar '\n' (.char c) = false := by
            simp [Glyph.isChar, Glyph.satisfies, hc]
          simp [past, hchar, Glyph.width, List.count_eq_zero_of_not_mem hnone]
          omega

theorem inFile_behind (file : Bytes) (chars : List Char) (rest : Bytes) :
    (behind chars).inFile file =
      locate file (encode chars ++ rest) (encode chars).length := by
  obtain ⟨line, hline, hbehind⟩ := behind_eq chars
  simp only [locate, List.take_left, hline, glyphs_encode, List.length_map, hbehind, inFile]
  push_cast
  rfl

end Place

/-- A location is that of `part` in a text: it is what `locate` finds at its own offset, and
`part` stands there. -/
def Locates (file text part : Bytes) (source : Location) : Prop :=
  source = locate file text source.pos.toNat ∧
    ∃ before after, text = before ++ part ++ after ∧ source.pos = before.length

theorem locates_behind (file : Bytes) (before part : List Char) (rest : Bytes) :
    Locates file (encode before ++ encode part ++ rest) (encode part)
      ((Place.behind before).inFile file) := by
  have hlocation := Place.inFile_behind file before (encode part ++ rest)
  rw [← List.append_assoc] at hlocation
  rw [hlocation]
  exact ⟨rfl, encode before, rest, rfl, rfl⟩

/-! ### Scanners -/

namespace Scanner

/-- What a scanner can be asked for. -/
inductive Call where
  /-- To take the next character. -/
  | advance
  /-- To look at the next glyph. -/
  | peek
  /-- To drop what was taken. -/
  | ignore
  /-- To cut off what was taken as a token. -/
  | emit (kind : Token.Kind)
deriving DecidableEq, Repr

/-- The scanner behind a call.  One that cannot take a character stays where it is. -/
def after (s : Scanner) : Call → Scanner
  | .advance =>
      match s.advance with
      | .ok next => next
      | .error _ => s
  | .peek => s
  | .ignore => s.ignore
  | .emit kind => (s.emit kind).2

/-- The token that a call cuts off. -/
def cut? (s : Scanner) : Call → Option Token
  | .emit kind => some (s.emit kind).1
  | _ => none

/-- Calls in order: the tokens that they cut off, and the scanner behind them. -/
def perform : Scanner → List Call → List Token × Scanner
  | s, [] => ([], s)
  | s, call :: calls =>
      let (tokens, last) := (s.after call).perform calls
      ((s.cut? call).toList ++ tokens, last)

theorem perform_cons (s : Scanner) (call : Call) (calls : List Call) :
    s.perform (call :: calls) =
      ((s.cut? call).toList ++ ((s.after call).perform calls).1,
        ((s.after call).perform calls).2) := rfl

/-- A scanner has come through a text: behind the characters `before` it has taken those of
`current`, and the rest of the glyphs is ahead. -/
structure Reaches (file text : Bytes) (before current : List Char) (s : Scanner) : Prop where
  file : s.file = file
  split : glyphs text = (before ++ current).map .char ++ s.ahead
  taken : s.taken.reverse = current.map .char
  start : s.start = .behind before
  here : s.here = .behind (before ++ current)

section

variable {file text : Bytes} {before current : List Char} {s : Scanner}

theorem reaches_ofBytes (file text : Bytes) : Reaches file text [] [] (ofBytes file text) :=
  ⟨rfl, rfl, rfl, rfl, rfl⟩

theorem Reaches.pass (hreaches : Reaches file text before current s) {c : Char}
    {rest : List Glyph} (hahead : s.ahead = .char c :: rest) :
    Reaches file text before (current ++ [c]) (s.pass c rest) where
  file := hreaches.file
  split := by
    rw [hreaches.split, hahead]
    simp
  taken := by
    rw [pass_taken, List.reverse_cons, hreaches.taken]
    simp
  start := hreaches.start
  here := by
    rw [← List.append_assoc, Place.behind_append_singleton, ← hreaches.here]
    rfl

theorem Reaches.ignore (hreaches : Reaches file text before current s) :
    Reaches file text (before ++ current) [] s.ignore where
  file := hreaches.file
  split := by
    rw [List.append_nil]
    exact hreaches.split
  taken := rfl
  start := hreaches.here
  here := by
    rw [List.append_nil]
    exact hreaches.here

/-- A scanner knows where its token stands. -/
theorem Reaches.locates (hreaches : Reaches file text before current s) :
    Locates file text s.text s.startLocation := by
  have htext : text = encode before ++ encode current ++ glyphBytes s.ahead := by
    rw [← encode_append]
    exact eq_encode_append hreaches.split
  have hcurrent : s.text = encode current := by
    rw [Scanner.text, hreaches.taken, glyphBytes_map_char]
  rw [hcurrent, startLocation, hreaches.file, hreaches.start, htext]
  exact locates_behind file before current _

/-- No call makes a scanner lose its place. -/
theorem Reaches.after (hreaches : Reaches file text before current s) (call : Call) :
    ∃ before' current', Reaches file text before' current' (s.after call) := by
  cases call with
  | advance =>
      rw [Scanner.after, advance]
      cases hahead : s.ahead with
      | nil => exact ⟨before, current, hreaches⟩
      | cons glyph rest =>
          cases glyph with
          | stray byte => exact ⟨before, current, hreaches⟩
          | char c => exact ⟨before, current ++ [c], hreaches.pass hahead⟩
  | peek => exact ⟨before, current, hreaches⟩
  | ignore => exact ⟨before ++ current, [], hreaches.ignore⟩
  | emit kind => exact ⟨before ++ current, [], hreaches.ignore⟩

theorem Reaches.cut? (hreaches : Reaches file text before current s) {call : Call}
    {token : Token} (htoken : s.cut? call = some token) :
    Locates file text token.text token.source := by
  cases call with
  | emit kind =>
      cases htoken
      exact hreaches.locates
  | advance => cases htoken
  | peek => cases htoken
  | ignore => cases htoken

theorem Reaches.perform (hreaches : Reaches file text before current s) (calls : List Call) :
    Locates file text (s.perform calls).2.text (s.perform calls).2.startLocation ∧
      ∀ token ∈ (s.perform calls).1, Locates file text token.text token.source := by
  induction calls generalizing before current s with
  | nil => exact ⟨hreaches.locates, by simp [Scanner.perform]⟩
  | cons call calls ih =>
      obtain ⟨before', current', hafter⟩ := hreaches.after call
      obtain ⟨hlast, htokens⟩ := ih hafter
      rw [perform_cons]
      refine ⟨hlast, fun token hmem => ?_⟩
      rcases List.mem_append.mp hmem with hfirst | hlater
      · exact hreaches.cut? (Option.mem_toList.mp hfirst)
      · exact htokens token hlater

end

/-- The two ways of finding a location agree.  Whatever is asked of a new scanner over a text,
in well-formed UTF-8 or not, the location of the token that it is at and the location of every
token that it has cut off are what `locate` finds in the bytes at their own offsets: the same
line and the same column.  What was taken, or cut off, stands at that offset. -/
theorem scanner_locations_agree (file text : Bytes) (calls : List Call) :
    let run := (ofBytes file text).perform calls
    Locates file text run.2.text run.2.startLocation ∧
      ∀ token ∈ run.1, Locates file text token.text token.source :=
  (reaches_ofBytes file text).perform calls

-- The token goes over a line feed, and the scanner stops in front of a stray byte.
example :
    let text := utf8 "é\nλx" ++ [255]
    let run := (ofBytes [] text).perform
      [.advance, .advance, .advance, .emit .symbol, .peek, .advance, .advance]
    run.2.startLocation = ⟨[], 5, 2, 2⟩ ∧ locate [] text 5 = ⟨[], 5, 2, 2⟩ := by
  decide +kernel

end Scanner

end MiniLisp
