import MiniLisp.Value.Printer

/-!
Formatting to a sink that refuses.  The walk along a value writes each piece of the external
form when it comes to it, and goes on whether the sink took the piece or not.  It is the tally
that lets nothing through after a refusal: the walk is then no more than writing the pieces in
order, and of those the sink takes as many as its budget allows.
-/

namespace MiniLisp

namespace Tally

theorem writeAll_reverse_cons (tally : Tally) (piece : Bytes) (done : List Bytes) :
    tally.writeAll (piece :: done).reverse = (tally.writeAll done.reverse).write piece := by
  simp [writeAll]

/-- Nothing is written after a refusal. -/
theorem writeAll_of_failed {tally : Tally} (hfailed : tally.failed = true)
    (pieces : List Bytes) : tally.writeAll pieces = tally := by
  induction pieces with
  | nil => rfl
  | cons piece pieces ih =>
      have hwrite : tally.write piece = tally := by simp [write, hfailed]
      rw [writeAll, List.foldl_cons, hwrite]
      exact ih

/-- A sink without a budget takes all pieces. -/
theorem writeAll_unlimited (written : List Bytes) (refused count : Nat)
    (pieces : List Bytes) :
    (Tally.mk ⟨written, none, refused⟩ count false).writeAll pieces =
      ⟨⟨pieces.reverse ++ written, none, refused⟩, count + pieces.flatten.length, false⟩ := by
  induction pieces generalizing written count with
  | nil => simp [writeAll]
  | cons piece pieces ih =>
      have haccepted := ih (piece :: written) (count + piece.length)
      rw [writeAll, List.foldl_cons]
      refine haccepted.trans ?_
      simp [Nat.add_assoc]

/-- A sink with a budget takes the first pieces, as many as the budget is, and refuses the
next one if there is one.  It is not asked again. -/
theorem writeAll_limited (written : List Bytes) (budget refused count : Nat)
    (pieces : List Bytes) :
    (Tally.mk ⟨written, some budget, refused⟩ count false).writeAll pieces =
      ⟨⟨(pieces.take budget).reverse ++ written, some (budget - pieces.length),
          if budget < pieces.length then refused + 1 else refused⟩,
        count + (pieces.take budget).flatten.length, decide (budget < pieces.length)⟩ := by
  induction pieces generalizing written budget count with
  | nil => simp [writeAll]
  | cons piece pieces ih =>
      rw [writeAll, List.foldl_cons]
      cases budget with
      | zero =>
          have hfailed : (Tally.mk ⟨written, some 0, refused + 1⟩ count true).failed = true := rfl
          have hrefused := writeAll_of_failed hfailed pieces
          refine hrefused.trans ?_
          simp
      | succ budget =>
          have haccepted := ih (piece :: written) budget (count + piece.length)
          refine haccepted.trans ?_
          simp [Nat.add_assoc]

end Tally

namespace Value

/-- The walk along a value writes its pieces in order, whatever becomes of them. -/
theorem writeTo_writeAll (value : Value) (inList : Bool) (tally : Tally) (done : List Bytes) :
    value.writeTo inList (tally.writeAll done.reverse) =
      tally.writeAll (value.piecesOnto inList done).reverse := by
  fun_induction piecesOnto value inList done with
  | case1 done head tail ihhead ihtail =>
      rw [Tally.writeAll_reverse_cons, ← ihtail, ← ihhead, Tally.writeAll_reverse_cons, writeTo]
  | case2 done head tail ihhead ihtail =>
      rw [← ihtail, ← ihhead, Tally.writeAll_reverse_cons, writeTo]
  | case3 done atom hatom =>
      rw [Tally.writeAll_reverse_cons, writeTo]
      exact hatom
  | case4 done atom hatom hempty =>
      rw [writeTo, if_pos hempty]
      exact hatom
  | case5 done atom hatom hempty =>
      rw [Tally.writeAll_reverse_cons, Tally.writeAll_reverse_cons, writeTo, if_neg hempty]
      exact hatom

theorem format_eq_writeAll (value : Value) (sink : Sink) :
    value.format sink = (Tally.on sink).writeAll value.pieces :=
  value.writeTo_writeAll false (.on sink) []

theorem format_unlimited (value : Value) :
    value.format .unlimited =
      ⟨⟨value.pieces.reverse, none, 0⟩, value.pieces.flatten.length, false⟩ := by
  have hwritten := Tally.writeAll_unlimited [] 0 0 value.pieces
  rw [List.append_nil, Nat.zero_add] at hwritten
  exact (value.format_eq_writeAll .unlimited).trans hwritten

/-- A sink without a budget receives the external form. -/
theorem text_format_unlimited (value : Value) :
    (value.format .unlimited).sink.text = value.render := by
  rw [format_unlimited, Sink.text, List.reverse_reverse, render]

theorem format_limited (value : Value) (sink : Sink) (budget : Nat) :
    value.format { sink with budget := some budget } =
      ⟨⟨(value.pieces.take budget).reverse ++ sink.written, some (budget - value.pieces.length),
          if budget < value.pieces.length then sink.refused + 1 else sink.refused⟩,
        (value.pieces.take budget).flatten.length, decide (budget < value.pieces.length)⟩ := by
  have hwritten := Tally.writeAll_limited sink.written budget sink.refused 0 value.pieces
  rw [Nat.zero_add] at hwritten
  exact (value.format_eq_writeAll _).trans hwritten

/-- Formatting stops at the first refusal.  Take the pieces in which a value is written to a
sink that refuses nothing, one for every write: they are the pieces of its external form.  A
sink that accepts no more than a budget of writes receives the first of these pieces, as many
as the budget allows, behind what it had before.  The count is the number of bytes in the
pieces received, a failure is reported if and only if there were more pieces than that, and
the sink was asked at most once after it had accepted the last of them. -/
theorem format_stops_at_refusal (value : Value) (sink : Sink) (budget : Nat) :
    let pieces := (value.format .unlimited).sink.written.reverse
    let received := pieces.take (min budget pieces.length)
    let result := value.format { sink with budget := some budget }
    pieces = value.pieces ∧
      result.sink.written.reverse = sink.written.reverse ++ received ∧
      result.sink.text = sink.text ++ received.flatten ∧
      result.count = received.flatten.length ∧
      (result.failed = true ↔ budget < pieces.length) ∧
      result.sink.refused ≤ sink.refused + 1 := by
  intro pieces received result
  have hpieces : pieces = value.pieces := by
    simp [pieces, format_unlimited]
  have hreceived : received = value.pieces.take budget := by
    rw [List.take_eq_take_min, ← hpieces]
  have hresult : result = _ := value.format_limited sink budget
  rw [hresult, hpieces, hreceived]
  refine ⟨rfl, ?_, ?_, rfl, ?_, ?_⟩
  · simp
  · simp [Sink.text]
  · simp
  · dsimp only
    split <;> omega

example : (Value.pair (.int 1) (.pair (.int 2) .empty)).format (.withBudget (some 2)) =
    ⟨⟨[utf8 "1", utf8 "("], some 0, 1⟩, 2, true⟩ := by
  decide +kernel

end Value

end MiniLisp
