import Mathlib.Data.List.DropRight
import MiniLisp.Proofs.SessionRun

/-!
The buffer of a session.  A session is asked to handle lines and to discard what is
incomplete.  On record are the lines with the answers to them; the buffer holds the lines at
the end of the record that were all answered by waiting for more, and nothing else.
-/

namespace MiniLisp

theorem joinWith_concat (separator part : Bytes) {parts : List Bytes} (hparts : parts ≠ []) :
    joinWith separator (parts ++ [part]) = joinWith separator parts ++ separator ++ part := by
  obtain ⟨first, rest, rfl⟩ := List.exists_cons_of_ne_nil hparts
  rw [List.cons_append, joinWith_cons, joinWith_cons, List.flatMap_append]
  simp

namespace Session

/-! ### One line -/

theorem buffer_report (session : Session) (failure : Failure) :
    (session.report failure).buffer = session.buffer := by
  rw [report]
  split <;> rfl

/-- What a line leads to: the session waits with the line in its buffer, it ends, or it has
settled what was in the buffer. -/
inductive Handles (session : Session) (text : Bytes) : Status → Session → Prop
  | waits (hbuffered : session.buffered text ≠ []) :
      Handles session text .more { session with buffer := session.buffered text }
  | exits (hpending : session.isPending = false) : Handles session text .exit session
  | settles {status : Status} {after : Session} (hmore : status ≠ .more)
      (hexit : status ≠ .exit) (hbuffer : after.buffer = [])
      (hreader : after.interpreter.reader = session.interpreter.reader) :
      Handles session text status after

section

variable {session : Session} {reader : Reader} {text : Bytes}

theorem handles_process (hreader : session.interpreter.reader = some reader)
    (hbuffered : session.buffered text ≠ []) :
    Handles session text (process { session with buffer := session.buffered text }).1
      (process { session with buffer := session.buffered text }).2 := by
  rw [process]
  simp only [hreader]
  cases reader.readAll sourceName (session.buffered text) with
  | error error =>
      dsimp only
      split_ifs
      · exact .waits hbuffered
      · apply Handles.settles
        · simp
        · simp
        · exact buffer_report _ _
        · rw [interpreter_report]
          rfl
  | ok exprs =>
      have hkept := Interpreter.reader_evalAll exprs session.interpreter .empty
      dsimp only [evaluate, reset]
      split
      · next hfailed =>
          rw [hfailed] at hkept
          apply Handles.settles
          · simp
          · simp
          · exact buffer_report _ _
          · rw [interpreter_report]
            exact hkept
      · next hvalue =>
          rw [hvalue] at hkept
          exact .settles (by simp) (by simp) rfl hkept
      · next hother =>
          rw [hother] at hkept
          exact .settles (by simp) (by simp) rfl hkept

/-- A session that can read handles every line. -/
theorem handles_line (hreader : session.interpreter.reader = some reader) (text : Bytes) :
    Handles session text (session.line text).1 (session.line text).2 := by
  cases hpending : session.isPending with
  | true =>
      have hbuffered : session.buffered text = session.buffer ++ utf8 "\n" ++ text := by
        simp [buffered, hpending]
      have hline :
          session.line text = process { session with buffer := session.buffered text } := by
        rw [Session.line, hpending, if_pos rfl, continueLine, hbuffered]
      rw [hline]
      apply handles_process hreader
      have hseparator : utf8 "\n" ≠ [] := by decide
      simp [hbuffered, hseparator]
  | false =>
      have hbuffered : session.buffered text = text := by simp [buffered, hpending]
      rw [Session.line, hpending, if_neg Bool.false_ne_true, startLine]
      split_ifs with hblank hword
      · apply Handles.settles
        · simp
        · simp
        · simpa [isPending] using hpending
        · rfl
      · exact .exits hpending
      · have htext : text ≠ [] := by
          rintro rfl
          exact hblank rfl
        have hprocess := handles_process hreader (hbuffered.symm ▸ htext)
        rwa [hbuffered] at hprocess

end

/-! ### Calls and their record -/

/-- What can be asked of a session. -/
inductive Call where
  /-- To handle a line. -/
  | line (text : Bytes)
  /-- To discard an incomplete expression. -/
  | reset
deriving DecidableEq, Repr

/-- A call on record, with the answer to a line. -/
inductive Entry where
  | line (text : Bytes) (status : Status)
  | reset
deriving DecidableEq, Repr

/-- The line that a session was left waiting behind. -/
def Entry.waiting? : Entry → Option Bytes
  | .line text .more => some text
  | _ => none

theorem Entry.waiting?_eq_some {entry : Entry} {text : Bytes} :
    entry.waiting? = some text ↔ entry = .line text .more := by
  rcases entry with ⟨text', _ | _ | _ | _⟩ | _ <;> simp [waiting?]

def respond (session : Session) : Call → Entry × Session
  | .line text => (.line text (session.line text).1, (session.line text).2)
  | .reset => (.reset, session.reset)

def perform : Session → List Call → List Entry × Session
  | session, [] => ([], session)
  | session, call :: calls =>
      let (entry, session) := session.respond call
      let (record, session) := session.perform calls
      (entry :: record, session)

theorem perform_cons (session : Session) (call : Call) (calls : List Call) :
    session.perform (call :: calls) =
      ((session.respond call).1 :: ((session.respond call).2.perform calls).1,
        ((session.respond call).2.perform calls).2) := rfl

/-- The lines at the end of a record, as far back as all of them left the session waiting. -/
def waitingLines (record : List Entry) : List Bytes :=
  (record.rtakeWhile fun entry => entry.waiting?.isSome).filterMap Entry.waiting?

theorem waitingLines_concat_more (record : List Entry) (text : Bytes) :
    waitingLines (record ++ [.line text .more]) = waitingLines record ++ [text] := by
  rw [waitingLines, List.rtakeWhile_concat_pos _ _ _ rfl, List.filterMap_append]
  rfl

theorem waitingLines_concat_of_none (record : List Entry) {entry : Entry}
    (hentry : entry.waiting? = none) : waitingLines (record ++ [entry]) = [] := by
  rw [waitingLines, List.rtakeWhile_concat_neg _ _ _ (by simp [hentry])]
  rfl

/-- Some line waits if and only if the latest call was a line that left the session waiting. -/
theorem waitingLines_ne_nil_iff {record : List Entry} :
    waitingLines record ≠ [] ↔ ∃ earlier text, record = earlier ++ [.line text .more] := by
  constructor
  · intro hwaiting
    rcases List.eq_nil_or_concat' record with rfl | ⟨earlier, entry, rfl⟩
    · exact absurd rfl hwaiting
    · cases hentry : entry.waiting? with
      | none => exact absurd (waitingLines_concat_of_none earlier hentry) hwaiting
      | some text => exact ⟨earlier, text, by rw [Entry.waiting?_eq_some.mp hentry]⟩
  · rintro ⟨earlier, text, rfl⟩
    rw [waitingLines_concat_more]
    simp

/-! ### The buffer and the record -/

/-- A session that can read holds the waiting lines of a record. -/
structure Holds (record : List Entry) (session : Session) : Prop where
  reader : ∃ reader, session.interpreter.reader = some reader
  buffer : session.buffer = joinWith (utf8 "\n") (waitingLines record)
  pending : session.isPending = true ↔ waitingLines record ≠ []

section

variable {record : List Entry} {session : Session}

theorem holds_settled {entry : Entry} (record : List Entry) (hentry : entry.waiting? = none)
    (hreader : ∃ reader, session.interpreter.reader = some reader)
    (hbuffer : session.buffer = []) : Holds (record ++ [entry]) session := by
  have hnone := waitingLines_concat_of_none record hentry
  refine ⟨hreader, ?_, ?_⟩
  · rw [hbuffer, hnone]
    rfl
  · simp [isPending, hbuffer, hnone]

/-- A line that leaves a session waiting joins the lines that wait already. -/
theorem Holds.buffered_eq (hholds : Holds record session) (text : Bytes) :
    session.buffered text = joinWith (utf8 "\n") (waitingLines record ++ [text]) := by
  cases hpending : session.isPending with
  | true =>
      rw [buffered, hpending, if_pos rfl, hholds.buffer,
        joinWith_concat _ _ (hholds.pending.mp hpending)]
  | false =>
      have hnone : waitingLines record = [] := by
        by_contra hsome
        simp [hholds.pending.mpr hsome] at hpending
      rw [buffered, hpending, if_neg Bool.false_ne_true, hnone]
      simp [joinWith]

/-- Every call keeps the buffer and the record in step. -/
theorem Holds.respond (hholds : Holds record session) (call : Call) :
    Holds (record ++ [(session.respond call).1]) (session.respond call).2 := by
  cases call with
  | reset => exact holds_settled record rfl hholds.reader rfl
  | line text =>
      obtain ⟨reader, hreader⟩ := hholds.reader
      have hhandles := handles_line hreader text
      rw [Session.respond]
      generalize (session.line text).1 = status at hhandles ⊢
      generalize (session.line text).2 = after at hhandles ⊢
      cases hhandles with
      | waits hbuffered =>
          refine ⟨hholds.reader, ?_, ?_⟩
          · rw [waitingLines_concat_more]
            exact hholds.buffered_eq text
          · simpa [isPending, waitingLines_concat_more] using hbuffered
      | exits hpending =>
          exact holds_settled record rfl hholds.reader (by simpa [isPending] using hpending)
      | settles hmore hexit hbuffer hkept =>
          refine holds_settled record ?_ ⟨reader, hkept.trans hreader⟩ hbuffer
          cases status with
          | more => exact absurd rfl hmore
          | ready => rfl
          | exit => rfl
          | crashed => rfl

theorem Holds.perform (hholds : Holds record session) (calls : List Call) :
    Holds (record ++ (session.perform calls).1) (session.perform calls).2 := by
  induction calls generalizing record session with
  | nil =>
      rw [Session.perform, List.append_nil]
      exact hholds
  | cons call calls ih =>
      have hlater := ih (hholds.respond call)
      rw [List.append_assoc] at hlater
      rw [perform_cons]
      exact hlater

/-- A line that leaves a session waiting, or ends it, changes nothing but the buffer. -/
theorem quiet_line {reader : Reader} (hreader : session.interpreter.reader = some reader)
    (text : Bytes)
    (hquiet : (session.line text).1 = .more ∨ (session.line text).1 = .exit) :
    (session.line text).2.interpreter = session.interpreter ∧
      (session.line text).2.errors = session.errors := by
  have hhandles := handles_line hreader text
  generalize (session.line text).1 = status at hhandles hquiet
  generalize (session.line text).2 = after at hhandles ⊢
  cases hhandles with
  | waits => exact ⟨rfl, rfl⟩
  | exits => exact ⟨rfl, rfl⟩
  | settles hmore hexit =>
      rcases hquiet with rfl | rfl
      · exact absurd rfl hmore
      · exact absurd rfl hexit

/-- A session with something incomplete is not ended by a line. -/
theorem isPending_of_exit {reader : Reader}
    (hreader : session.interpreter.reader = some reader) (text : Bytes)
    (hended : (session.line text).1 = .exit) : session.isPending = false := by
  have hhandles := handles_line hreader text
  rw [hended] at hhandles
  generalize (session.line text).2 = after at hhandles
  cases hhandles with
  | exits hpending => exact hpending
  | settles hmore hexit => exact absurd rfl hexit

end

/-- What a session buffers.  Take a session that can read and has nothing incomplete, and ask
it to handle lines, of any bytes, and to discard what is incomplete, in any order.  Behind all
the calls something is incomplete if and only if the last of them was a line that left the
session waiting for more, and the buffer holds, joined by line feeds, the lines at the end of
the record as far back as all of them left it waiting.  If the next line ends the session then
nothing was incomplete; and a line that ends it or leaves it waiting writes neither output nor
reports, and leaves the interpreter as it was, with its global environment. -/
theorem buffer_holds_waiting_lines {session : Session} {reader : Reader}
    (hreader : session.interpreter.reader = some reader) (hidle : session.isPending = false)
    (calls : List Call) :
    let record := (session.perform calls).1
    let after := (session.perform calls).2
    (after.isPending = true ↔ ∃ earlier text, record = earlier ++ [.line text .more]) ∧
      after.buffer = joinWith (utf8 "\n") (waitingLines record) ∧
      ∀ text,
        ((after.line text).1 = .exit → after.isPending = false) ∧
          ((after.line text).1 = .more ∨ (after.line text).1 = .exit →
            (after.line text).2.interpreter = after.interpreter ∧
              (after.line text).2.errors = after.errors) := by
  intro record after
  have hbuffer : session.buffer = [] := by simpa [isPending] using hidle
  have hstart : Holds [] session := by
    refine ⟨⟨reader, hreader⟩, hbuffer, ?_⟩
    simp [hidle, waitingLines]
  have hholds : Holds record after := hstart.perform calls
  obtain ⟨reader', hreader'⟩ := hholds.reader
  refine ⟨hholds.pending.trans waitingLines_ne_nil_iff, hholds.buffer, fun text => ⟨?_, ?_⟩⟩
  · exact isPending_of_exit hreader' text
  · exact quiet_line hreader' text

/-- An expression that an unrelated word is part of, one that is discarded, and one that
begins over two lines. -/
def interruptedCalls : List Call :=
  [.line (utf8 "(quote"), .line (utf8 "exit"), .line (utf8 ")"), .line (utf8 "(car"), .reset,
    .line (utf8 " "), .line (utf8 "(cdr"), .line (utf8 "'")]

theorem buffer_holds_waiting_lines_interrupted :
    let after := ((Session.new tokenInterpreter false).perform interruptedCalls).2
    after.isPending = true ∧ after.buffer = utf8 "(cdr\n'" ∧
      (after.line (utf8 "exit")).1 = .more ∧
      (after.line (utf8 "exit")).2.interpreter = after.interpreter := by
  intro after
  obtain ⟨hpending, hbuffer, hline⟩ := buffer_holds_waiting_lines
    (show (Session.new tokenInterpreter false).interpreter.reader = some .tokens from rfl) rfl
    interruptedCalls
  have hrecord : ((Session.new tokenInterpreter false).perform interruptedCalls).1 =
      [.line (utf8 "(quote") .more, .line (utf8 "exit") .more, .line (utf8 ")") .ready,
        .line (utf8 "(car") .more, .reset, .line (utf8 " ") .ready,
        .line (utf8 "(cdr") .more] ++ [.line (utf8 "'") .more] := by decide +kernel
  have hmore : (after.line (utf8 "exit")).1 = .more := by decide +kernel
  rw [hrecord] at hpending hbuffer
  refine ⟨hpending.mpr ⟨_, _, rfl⟩, hbuffer.trans ?_, hmore, ((hline _).2 (.inl hmore)).1⟩
  decide +kernel

end Session

end MiniLisp
