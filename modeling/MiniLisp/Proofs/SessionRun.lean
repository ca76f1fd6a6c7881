import MiniLisp.CommandLine
import MiniLisp.Proofs.DepthLimit
import MiniLisp.Proofs.ReadValues
import MiniLisp.Proofs.Safety

/-!
Sessions and runs.  A session that reports nothing has evaluated the expressions of its
lines, however these split them, just as a run of all the lines together does.  Under a
limit on the depth it has an answer to every line.
-/

namespace MiniLisp

/-- What is read exists with all of its parts. -/
theorem Value.Plain.sound {value : Value} (hplain : value.Plain) (scopes : Nat) :
    value.Sound scopes := by
  induction value with
  | pair head tail ihead itail => exact ⟨ihead hplain.1, itail hplain.2⟩
  | symbol symbol => trivial
  | int n => trivial
  | text content => trivial
  | _ => exact hplain.elim

/-! ### Evaluation one after the other -/

namespace Interpreter

theorem evalAll_append {each : Interpreter → Value → Interpreter} {it middle : Interpreter}
    {exprs : List Value} {last value : Value}
    (hfirst : evalAll each it exprs last = (.value value, middle)) (rest : List Value) :
    evalAll each it (exprs ++ rest) last = evalAll each middle rest value := by
  induction exprs generalizing it last with
  | nil =>
      cases hfirst
      rfl
  | cons expr exprs ih =>
      rw [evalAll] at hfirst
      rw [List.cons_append, evalAll]
      split at hfirst
      · exact ih hfirst
      · next hother => exact absurd hfirst (hother _ _)

/-- What is evaluated does not depend on the value that stands in for none. -/
theorem evalAll_last {each : Interpreter → Value → Interpreter} {it after : Interpreter}
    {exprs : List Value} {last value : Value}
    (hall : evalAll each it exprs last = (.value value, after)) (last' : Value) :
    ∃ value', evalAll each it exprs last' = (.value value', after) := by
  cases exprs with
  | nil =>
      cases hall
      exact ⟨last', rfl⟩
  | cons expr exprs => exact ⟨value, hall⟩

theorem reader_evalAll (exprs : List Value) (it : Interpreter) (last : Value) :
    (evalAll writeValue it exprs last).2.reader = it.reader := by
  induction exprs generalizing it last with
  | nil => rfl
  | cons expr exprs ih =>
      have heval : (it.eval expr).2.reader = it.reader := rfl
      rw [evalAll]
      split
      · next value middle hvalue =>
          rw [hvalue] at heval
          exact (ih _ _).trans heval
      · exact heval

/-- An interpreter with nothing to do that limits the depth and is sound. -/
structure Steady (it : Interpreter) : Prop where
  limit : 0 < it.config.maxDepth
  sound : it.state.Sound
  global : State.globalScope < it.state.envs.size
  depth : it.state.depth = 0

theorem depth_choose {start chosen : Interpreter} {setting : Setting}
    (hchosen : choose start setting = .ok chosen) :
    chosen.state.depth = start.state.depth := by
  unfold choose at hchosen
  split at hchosen
  all_goals
    try split_ifs at hchosen
    cases hchosen
    try rfl

theorem depth_foldlM_choose {settings : List Setting} {start chosen : Interpreter}
    (hchosen : settings.foldlM choose start = .ok chosen) :
    chosen.state.depth = start.state.depth := by
  induction settings generalizing start with
  | nil =>
      cases hchosen
      rfl
  | cons setting settings ih =>
      rw [List.foldlM_cons] at hchosen
      cases hfirst : choose start setting with
      | error failure =>
          rw [hfirst] at hchosen
          cases hchosen
      | ok next =>
          rw [hfirst] at hchosen
          exact (ih hchosen).trans (depth_choose hfirst)

/-- A new interpreter has nothing to do. -/
theorem steady_new {settings : List Setting} {it : Interpreter}
    (hnew : new settings = .ok it) (hlimit : 0 < it.config.maxDepth) : it.Steady := by
  have hsound := sound_new hnew
  cases hchosen : settings.foldlM choose blank with
  | error failure =>
      rw [new, hchosen] at hnew
      cases hnew
  | ok chosen =>
      rw [new, hchosen] at hnew
      cases hnew
      exact ⟨hlimit, hsound, Nat.zero_lt_one, depth_foldlM_choose hchosen⟩

theorem Steady.eval {it : Interpreter} (hsteady : it.Steady) {expr : Value}
    (hexpr : expr.Sound it.state.envs.size) :
    ((∃ value, (it.eval expr).1 = .value value) ∨
      ∃ failure, (it.eval expr).1 = .failed failure) ∧ (it.eval expr).2.Steady := by
  have hsafe := (Eval.safe_eval it.config (it.config.fuel it.state.depth)).safe
    hsteady.sound hsteady.global hexpr
  have hdepth := (Eval.effect_depth it.config).eval (it.config.fuel it.state.depth) expr
    State.globalScope it.state
  have hlimit := hsteady.limit
  have hzero := hsteady.depth
  have hfuel : it.config.fuel it.state.depth = it.config.maxDepth.toNat + 1 := by
    rw [Config.fuel, if_pos hlimit, hzero]
    rfl
  have hends : (it.eval expr).1 ≠ .exhausted :=
    Eval.eval_ne_exhausted hlimit expr State.globalScope it.state (by omega) (by omega)
  have hcrash : (it.eval expr).1 ≠ .crashed := hsafe.outcome.ne_crashed
  refine ⟨?_, hlimit, hsafe.state, Nat.lt_of_lt_of_le hsteady.global hsafe.size,
    hdepth.trans hzero⟩
  cases houtcome : (it.eval expr).1 with
  | value value => exact .inl ⟨value, rfl⟩
  | failed failure => exact .inr ⟨failure, rfl⟩
  | crashed => exact absurd houtcome hcrash
  | exhausted => exact absurd houtcome hends

theorem Steady.writeValue {it : Interpreter} (hsteady : it.Steady) (value : Value) :
    (it.writeValue value).Steady :=
  ⟨hsteady.limit, hsteady.sound, hsteady.global, hsteady.depth⟩

theorem Steady.evalAll {each : Interpreter → Value → Interpreter} {it : Interpreter}
    (hsteady : it.Steady)
    (heach : ∀ (it : Interpreter) (value : Value), it.Steady → (each it value).Steady)
    {exprs : List Value} (hexprs : ∀ expr ∈ exprs, expr.Plain) (last : Value) :
    ((∃ value, (evalAll each it exprs last).1 = .value value) ∨
      ∃ failure, (Interpreter.evalAll each it exprs last).1 = .failed failure) ∧
      (Interpreter.evalAll each it exprs last).2.Steady := by
  induction exprs generalizing it last with
  | nil => exact ⟨.inl ⟨last, rfl⟩, hsteady⟩
  | cons expr exprs ih =>
      rw [List.forall_mem_cons] at hexprs
      obtain ⟨houtcome, hnext⟩ := hsteady.eval (hexprs.1.sound _)
      rw [Interpreter.evalAll]
      split
      · next value middle hvalue =>
          rw [hvalue] at hnext
          exact ih (heach middle value hnext) hexprs.2 value
      · exact ⟨houtcome, hnext⟩

end Interpreter

/-! ### Lines of a session -/

theorem glyphs_eq_nil {text : Bytes} (hnil : glyphs text = []) : text = [] := by
  cases text with
  | nil => rfl
  | cons byte rest =>
      rw [glyphs_cons] at hnil
      cases hnil

theorem glyphBytes_eq_nil {text : List Glyph} (hnil : glyphBytes text = []) : text = [] := by
  rw [glyphBytes, List.flatMap_eq_nil_iff] at hnil
  refine List.eq_nil_iff_forall_not_mem.mpr fun glyph hmem => ?_
  have hbytes := hnil glyph hmem
  cases glyph with
  | char c => exact String.utf8EncodeChar_ne_nil hbytes
  | stray byte => cases hbytes

theorem downcase_eq_nil {text : Bytes} (hnil : downcase text = []) : text = [] := by
  rw [downcase, mapChars, List.flatMap_eq_nil_iff] at hnil
  refine glyphs_eq_nil (List.eq_nil_iff_forall_not_mem.mpr fun glyph hmem => ?_)
  exact String.utf8EncodeChar_ne_nil (hnil glyph hmem)

/-- Nothing is left of a text without the white space at both ends if and only if it is
blank. -/
theorem blank_of_trimBlank {text : Bytes} (hnil : trimBlank text = []) :
    ∀ glyph ∈ glyphs text, Glyph.satisfies isBlank glyph = true := by
  have hback := List.reverse_eq_nil_iff.mp (glyphBytes_eq_nil hnil)
  rw [List.dropWhile_eq_nil_iff] at hback
  rw [← List.dropWhile_eq_nil_iff]
  cases hfront : (glyphs text).dropWhile (Glyph.satisfies isBlank) with
  | nil => rfl
  | cons glyph rest =>
      have hglyph := hback glyph (by simp [hfront])
      have hnot := List.head?_dropWhile_not (Glyph.satisfies isBlank) (glyphs text)
      simp [hfront, hglyph] at hnot

namespace Session

/-- Handle lines in order: what the session waits for after each of them, and the session
behind them all. -/
def lines : Session → List Bytes → List Status × Session
  | session, [] => ([], session)
  | session, line :: rest =>
      let (status, session) := session.line line
      let (statuses, session) := session.lines rest
      (status :: statuses, session)

theorem lines_cons (session : Session) (line : Bytes) (rest : List Bytes) :
    session.lines (line :: rest) =
      ((session.line line).1 :: ((session.line line).2.lines rest).1,
        ((session.line line).2.lines rest).2) := rfl

/-! ### Reports -/

theorem writeError_extends_report (session : Session) (failure : Failure) :
    (session.writeError (failure.message ++ utf8 "\n")).errors.Extends
      (session.report failure).errors := by
  rw [report]
  split
  · next stack _ _ => exact Tally.extends_writeAll (Tally.on _) stack.trace
  · exact .refl _

theorem extends_report (session : Session) (failure : Failure) :
    session.errors.Extends (session.report failure).errors :=
  (session.errors.extends_write _).trans (session.writeError_extends_report failure)

/-- A report shows. -/
theorem text_report_ne_nil (session : Session) (hbudget : session.errors.budget = none)
    (failure : Failure) : (session.report failure).errors.text ≠ [] := by
  have hline : utf8 "\n" ≠ [] := by decide
  have hwritten : (session.writeError (failure.message ++ utf8 "\n")).errors.text ≠ [] := by
    simp [writeError, Sink.write, hbudget, Sink.text, hline]
  intro hnil
  have hprefix := Sink.Extends.text_prefix (session.writeError_extends_report failure)
  rw [hnil, List.prefix_nil] at hprefix
  exact hwritten hprefix

theorem extends_evaluate (session : Session) (exprs : List Value) :
    session.errors.Extends (session.evaluate exprs).2.errors := by
  rw [evaluate]
  split
  · next failure it _ => exact extends_report { session with interpreter := it } failure
  · exact .refl _
  · exact .refl _

theorem extends_process (session : Session) :
    session.errors.Extends session.process.2.errors := by
  rw [process]
  split
  · exact .refl _
  · split
    · exact extends_evaluate session.reset _
    · split_ifs
      · exact .refl _
      · exact extends_report session.reset _

theorem extends_line (session : Session) (line : Bytes) :
    session.errors.Extends (session.line line).2.errors := by
  rw [Session.line]
  split_ifs
  · exact extends_process { session with buffer := session.buffer ++ utf8 "\n" ++ line }
  · rw [startLine]
    split_ifs
    · exact .refl _
    · exact .refl _
    · exact extends_process { session with buffer := line }

/-- No line takes a report back. -/
theorem extends_lines (lines : List Bytes) (session : Session) :
    session.errors.Extends (session.lines lines).2.errors := by
  induction lines generalizing session with
  | nil => exact .refl _
  | cons line rest ih => exact (session.extends_line line).trans (ih _)

/-! ### What a line does -/

/-- What a session waits to have read once it has a line. -/
def buffered (session : Session) (line : Bytes) : Bytes :=
  if session.isPending then session.buffer ++ utf8 "\n" ++ line else line

/-- The ways in which a session can go on from a text without a report: there was nothing to
read, the text is incomplete, or its expressions have values. -/
inductive Continues (session : Session) (text : Bytes) : Session → Prop
  | blank (hempty : session.buffer = [])
      (hread : Reader.tokens.readAll sourceName text = .ok []) : Continues session text session
  | waits : Continues session text { session with buffer := text }
  | evaluates {exprs : List Value} {last : Value} {it : Interpreter}
      (hread : Reader.tokens.readAll sourceName text = .ok exprs)
      (hall : Interpreter.evalAll Interpreter.writeValue session.interpreter exprs .empty =
        (.value last, it)) :
      Continues session text { session with interpreter := it, buffer := [] }

section

variable {session : Session}

theorem continues_process (htokens : session.interpreter.reader = some .tokens)
    (hbudget : session.errors.budget = none) {text : Bytes}
    (hanswered : (process { session with buffer := text }).1 ≠ .crashed)
    (hquiet : (process { session with buffer := text }).2.errors.text = []) :
    Continues session text (process { session with buffer := text }).2 := by
  rw [process] at hanswered hquiet ⊢
  simp only [htokens] at hanswered hquiet ⊢
  cases hread : Reader.tokens.readAll sourceName text with
  | error error =>
      rw [hread] at hquiet
      dsimp only at hquiet ⊢
      split_ifs at hquiet ⊢
      · exact .waits
      · exact absurd hquiet (text_report_ne_nil session.reset hbudget _)
  | ok exprs =>
      rw [hread] at hanswered hquiet
      dsimp only [evaluate, reset] at hanswered hquiet ⊢
      obtain ⟨⟨outcome, it⟩, hall⟩ : ∃ result, Interpreter.evalAll Interpreter.writeValue
          session.interpreter exprs .empty = result := ⟨_, rfl⟩
      rw [hall] at hanswered hquiet ⊢
      cases outcome with
      | value last => exact .evaluates hread hall
      | failed failure =>
          exact absurd hquiet
            (text_report_ne_nil { session.reset with interpreter := it } hbudget failure)
      | crashed => exact absurd rfl hanswered
      | exhausted => exact absurd rfl hanswered

theorem continues_line (htokens : session.interpreter.reader = some .tokens)
    (hbudget : session.errors.budget = none) {line : Bytes}
    (hexit : (session.line line).1 ≠ .exit) (hanswered : (session.line line).1 ≠ .crashed)
    (hquiet : (session.line line).2.errors.text = []) :
    Continues session (session.buffered line) (session.line line).2 := by
  rw [Session.line] at hexit hanswered hquiet ⊢
  rw [buffered]
  split_ifs at hexit hanswered hquiet ⊢ with hpending
  · exact continues_process htokens hbudget hanswered hquiet
  · rw [startLine] at hexit hanswered hquiet ⊢
    split_ifs at hexit hanswered hquiet ⊢ with hempty hword
    · have htrim := downcase_eq_nil (List.isEmpty_iff.mp hempty)
      exact .blank (by simpa [isPending] using hpending)
        (TokenReader.readAll_blank (blank_of_trimBlank htrim))
    · exact absurd rfl hexit
    · exact continues_process htokens hbudget hanswered hquiet

/-- What is read with a line in the buffer is read with it behind the buffer. -/
theorem readAll_buffered {line more : Bytes} {values : List Value}
    (hread : Reader.tokens.readAll sourceName (session.buffered line ++ more) = .ok values) :
    Reader.tokens.readAll sourceName (session.buffer ++ 10 :: (line ++ more)) = .ok values := by
  rw [buffered] at hread
  split_ifs at hread with hpending
  · rw [show utf8 "\n" = [10] from by decide] at hread
    simpa using hread
  · have hempty : session.buffer = [] := by simpa [isPending] using hpending
    rw [hempty, List.nil_append]
    exact TokenReader.readAll_cons_line.mpr hread

end

/-- A session that reports nothing and waits for nothing has evaluated the expressions of
its buffer and its lines, one after the other. -/
theorem evalAll_of_lines {lines : List Bytes} (session : Session)
    (htokens : session.interpreter.reader = some .tokens)
    (hbudget : session.errors.budget = none) (hexit : .exit ∉ (session.lines lines).1)
    (hanswered : .crashed ∉ (session.lines lines).1)
    (hquiet : (session.lines lines).2.errors.text = [])
    (hdone : (session.lines lines).2.buffer = []) :
    ∃ exprs last,
      Reader.tokens.readAll sourceName (session.buffer ++ TokenReader.linesBelow lines) =
          .ok exprs ∧
        Interpreter.evalAll Interpreter.writeValue session.interpreter exprs .empty =
          (.value last, (session.lines lines).2.interpreter) := by
  induction lines generalizing session with
  | nil =>
      have hempty : session.buffer = [] := hdone
      refine ⟨[], .empty, ?_, rfl⟩
      rw [hempty]
      exact TokenReader.readAll_nil _ _
  | cons line rest ih =>
      rw [lines_cons] at hexit hanswered hquiet hdone ⊢
      simp only [List.mem_cons, not_or] at hexit hanswered
      have hline : (session.line line).2.errors.text = [] := by
        have hprefix := Sink.Extends.text_prefix (extends_lines rest (session.line line).2)
        rwa [hquiet, List.prefix_nil] at hprefix
      have hcontinues := continues_line htokens hbudget (Ne.symm hexit.1)
        (Ne.symm hanswered.1) hline
      generalize (session.line line).2 = next at *
      have hbelow : TokenReader.linesBelow (line :: rest) =
          10 :: (line ++ TokenReader.linesBelow rest) := rfl
      rw [hbelow]
      cases hcontinues with
      | blank hempty hread =>
          obtain ⟨exprs, last, hrest, hall⟩ :=
            ih session htokens hbudget hexit.2 hanswered.2 hquiet hdone
          rw [hempty, List.nil_append] at hrest
          exact ⟨exprs, last, readAll_buffered
            (TokenReader.readAll_append_linesBelow hread hrest), hall⟩
      | waits =>
          obtain ⟨exprs, last, hrest, hall⟩ :=
            ih { session with buffer := session.buffered line } htokens hbudget hexit.2
              hanswered.2 hquiet hdone
          exact ⟨exprs, last, readAll_buffered hrest, hall⟩
      | @evaluates exprs value it hread hvalues =>
          have hreader : it.reader = some .tokens := by
            have hkept := Interpreter.reader_evalAll exprs session.interpreter .empty
            rw [hvalues] at hkept
            exact hkept.trans htokens
          obtain ⟨more, last, hrest, hall⟩ :=
            ih { session with interpreter := it, buffer := [] } hreader hbudget hexit.2
              hanswered.2 hquiet hdone
          obtain ⟨last', hall'⟩ := Interpreter.evalAll_last hall value
          refine ⟨exprs ++ more, last', readAll_buffered
            (TokenReader.readAll_append_linesBelow hread hrest), ?_⟩
          rw [Interpreter.evalAll_append hvalues, hall']

/-! ### Answers to lines -/

theorem interpreter_report (session : Session) (failure : Failure) :
    (session.report failure).interpreter = session.interpreter := by
  rw [report]
  split <;> rfl

/-- A session under a limit on the depth answers, and stays one. -/
theorem steady_process {session : Session}
    (htokens : session.interpreter.reader = some .tokens)
    (hsteady : session.interpreter.Steady) :
    session.process.1 ≠ .crashed ∧ session.process.2.interpreter.reader = some .tokens ∧
      session.process.2.interpreter.Steady := by
  rw [process]
  simp only [htokens]
  split
  · next exprs hread =>
      obtain ⟨houtcome, hnext⟩ := hsteady.evalAll (fun _ value hit => hit.writeValue value)
        (TokenReader.plain_readAll hread) .empty
      have hreader := (Interpreter.reader_evalAll exprs session.interpreter .empty).trans htokens
      dsimp only [evaluate, reset]
      split
      · next hfailed =>
          rw [hfailed] at hreader hnext
          rw [interpreter_report]
          exact ⟨by simp, hreader, hnext⟩
      · next hvalue =>
          rw [hvalue] at hreader hnext
          exact ⟨by simp, hreader, hnext⟩
      · next hfailed hvalue hresult =>
          rw [hresult] at houtcome
          rcases houtcome with ⟨value, rfl⟩ | ⟨failure, rfl⟩
          · exact absurd rfl (hvalue value)
          · exact absurd rfl (hfailed failure)
  · split_ifs
    · exact ⟨by simp, htokens, hsteady⟩
    · rw [interpreter_report]
      exact ⟨by simp, htokens, hsteady⟩

theorem steady_line {session : Session} (line : Bytes)
    (htokens : session.interpreter.reader = some .tokens)
    (hsteady : session.interpreter.Steady) :
    (session.line line).1 ≠ .crashed ∧
      (session.line line).2.interpreter.reader = some .tokens ∧
      (session.line line).2.interpreter.Steady := by
  rw [Session.line]
  split_ifs
  · exact steady_process htokens hsteady
  · rw [startLine]
    split_ifs
    · exact ⟨by simp, htokens, hsteady⟩
    · exact ⟨by simp, htokens, hsteady⟩
    · exact steady_process htokens hsteady

/-- Under a limit on the depth there is an answer to every line. -/
theorem crashed_not_mem_lines {lines : List Bytes} {session : Session}
    (htokens : session.interpreter.reader = some .tokens)
    (hsteady : session.interpreter.Steady) : .crashed ∉ (session.lines lines).1 := by
  induction lines generalizing session with
  | nil => exact List.not_mem_nil
  | cons line rest ih =>
      obtain ⟨hanswered, hreader, hnext⟩ := session.steady_line line htokens hsteady
      rw [lines_cons, List.mem_cons, not_or]
      exact ⟨Ne.symm hanswered, ih hreader hnext⟩

end Session

/-! ### Sessions and runs -/

theorem joinWith_cons (separator part : Bytes) (parts : List Bytes) :
    joinWith separator (part :: parts) = part ++ parts.flatMap (separator ++ ·) := by
  induction parts generalizing part with
  | nil => simp [joinWith]
  | cons next parts ih =>
      rw [List.flatMap_cons, List.append_assoc, ← ih next]
      simp [joinWith]

theorem readAll_joinWith {file : Bytes} {lines : List Bytes} {values : List Value}
    (hread : Reader.tokens.readAll file (TokenReader.linesBelow lines) = .ok values)
    (file' : Bytes) :
    Reader.tokens.readAll file' (joinWith (utf8 "\n") lines) = .ok values := by
  cases lines with
  | nil => exact TokenReader.readAll_name hread file'
  | cons line rest =>
      have hline : utf8 "\n" = [10] := by decide
      rw [joinWith_cons, hline]
      exact TokenReader.readAll_name (TokenReader.readAll_cons_line.mp hread) file'

/-- A session and a run agree.  Suppose that the lines of a session on a new interpreter end
it nowhere, and that it has reported nothing and waits for nothing behind them.  Then the run
of all the lines in one text, on an equal interpreter, reads expressions, gives every one of
them a value in order, fails nowhere, and ends in the interpreter that the session ends in,
with the same output and the same global environment.  Under a limit on the depth nothing
else is needed; without one it is assumed that the session has an answer to every line. -/
theorem session_agrees_with_run {settings : List Setting} {it : Interpreter}
    (hnew : Interpreter.new settings = .ok it) (htokens : it.reader = some .tokens)
    (printStack : Bool) (lines : List Bytes)
    (hexit : .exit ∉ ((Session.new it printStack).lines lines).1)
    (hanswered : 0 < it.config.maxDepth ∨
      .crashed ∉ ((Session.new it printStack).lines lines).1)
    (hquiet : ((Session.new it printStack).lines lines).2.errors.text = [])
    (hdone : ((Session.new it printStack).lines lines).2.isPending = false)
    (inputs : CommandLine.Inputs) {options : Options}
    (hexpression : options.expression = true) (hprint : options.print = true) :
    let session := ((Session.new it printStack).lines lines).2
    let text := joinWith (utf8 "\n") lines
    let run := CommandLine.runProgram inputs options it text
    (∃ exprs last, CommandLine.programExpressions inputs options it text = .ok exprs ∧
        Interpreter.evalAll Interpreter.writeValue it exprs .empty =
          (.value last, session.interpreter)) ∧
      run.1 = none ∧ run.2.drainOutput.1 = session.interpreter.drainOutput.1 ∧
      run.2.global = session.interpreter.global ∧ run.2 = session.interpreter := by
  have hcrash : .crashed ∉ ((Session.new it printStack).lines lines).1 := by
    rcases hanswered with hlimit | hcrash
    · exact Session.crashed_not_mem_lines htokens (Interpreter.steady_new hnew hlimit)
    · exact hcrash
  obtain ⟨exprs, last, hread, hall⟩ := (Session.new it printStack).evalAll_of_lines htokens rfl
    hexit hcrash hquiet (by simpa [Session.isPending] using hdone)
  intro session text run
  have hexprs : CommandLine.programExpressions inputs options it text = .ok exprs := by
    have hjoined := readAll_joinWith hread (utf8 "<expression>")
    rw [CommandLine.programExpressions, CommandLine.program, if_pos hexpression]
    simp only [htokens]
    change (Reader.tokens.readAll _ text).mapError Failure.ofReadError = .ok exprs
    rw [hjoined]
    rfl
  have hrun : run = (none, session.interpreter) := by
    have hall' : Interpreter.evalAll Interpreter.writeValue it exprs .empty =
        (.value last, session.interpreter) := hall
    simp only [run, CommandLine.runProgram, hexprs, hprint, if_true, hall',
      CommandLine.failure?]
  exact ⟨⟨exprs, last, hexprs, hall⟩, by rw [hrun], by rw [hrun], by rw [hrun], by rw [hrun]⟩

def tokenInterpreter : Interpreter :=
  Interpreter.install { Interpreter.blank with reader := some .tokens }

/-- Two expressions over four lines.  The second line is blank, and the third has a part of
both expressions. -/
def splitLines : List Bytes :=
  ["(define a (+ 1", " ", "2)) (* a", "a)"].map utf8

theorem session_agrees_with_run_split :
    let options := { Options.default with expression := true, print := true }
    let run := CommandLine.runProgram ⟨fun _ => none, []⟩ options tokenInterpreter
      (joinWith (utf8 "\n") splitLines)
    run.1 = none ∧ run.2.drainOutput.1 = utf8 "3\n9\n" := by
  intro options run
  obtain ⟨_, hfailure, houtput, _⟩ := session_agrees_with_run
    (show Interpreter.new [.reader (some .tokens)] = .ok tokenInterpreter from rfl) rfl false
    splitLines (by decide +kernel) (.inl (by decide)) (by decide +kernel) (by decide +kernel)
    ⟨fun _ => none, []⟩ (show options.expression = true from rfl)
    (show options.print = true from rfl)
  refine ⟨hfailure, houtput.trans ?_⟩
  decide +kernel

end MiniLisp
