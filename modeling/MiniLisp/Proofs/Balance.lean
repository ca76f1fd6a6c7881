import Mathlib.Logic.Relation
import MiniLisp.Proofs.Evaluation

/-!
Balance.  However an evaluation ends, it leaves as many evaluations nested and the same
functions being applied as before, unless it never ends.  So the last function being
applied is always there to be dropped, and an interpreter that has nothing to do has
nothing left over from what it did before.
-/

namespace MiniLisp

/-- The same number of evaluations is nested, and the same functions are being applied. -/
structure State.Balanced (before after : State) : Prop where
  depth : after.depth = before.depth
  calls : after.calls = before.calls

namespace State.Balanced

theorem refl (state : State) : state.Balanced state :=
  ⟨rfl, rfl⟩

theorem trans {first second third : State} (hfirst : first.Balanced second)
    (hsecond : second.Balanced third) : first.Balanced third :=
  ⟨hsecond.depth.trans hfirst.depth, hsecond.calls.trans hfirst.calls⟩

end State.Balanced

namespace Eval

theorem balanced_eval {config : Config} {fuel : Nat} {expr : Value} {scope : Nat}
    {state : State} (hends : (eval config fuel expr scope state).1 ≠ .crashed) :
    state.Balanced (eval config fuel expr scope state).2 :=
  ⟨(effect_depth config).eval fuel expr scope state,
    (effect_calls config).eval fuel expr scope state hends⟩

theorem balanced_call {config : Config} {fuel : Nat} {function arguments : Value}
    {state : State}
    (hends : (call (eval config fuel) config function arguments state).1 ≠ .crashed) :
    state.Balanced (call (eval config fuel) config function arguments state).2 :=
  ⟨(effect_depth config).call ((effect_depth config).eval fuel) State.globalScope _ _ state,
    (effect_calls config).call ((effect_calls config).eval fuel) State.globalScope _ _ state
      hends⟩

theorem balanced_apply {config : Config} {fuel : Nat} {function arguments : Value}
    {state : State}
    (hends : (apply (eval config fuel) config function arguments state).1 ≠ .crashed) :
    state.Balanced (apply (eval config fuel) config function arguments state).2 :=
  ⟨(effect_depth config).apply ((effect_depth config).eval fuel) State.globalScope _ _ state,
    (effect_calls config).apply ((effect_calls config).eval fuel) State.globalScope _ _ state
      hends⟩

/-- When a call ends, the function that was called is the last of those being applied. -/
theorem popCall?_call {config : Config} {fuel : Nat} {function arguments : Value}
    {state : State} {frame : Frame}
    (hends : (call (eval config fuel) config function arguments
      (state.pushCall frame)).1 ≠ .crashed) :
    (call (eval config fuel) config function arguments (state.pushCall frame)).2.popCall? =
      some { (call (eval config fuel) config function arguments (state.pushCall frame)).2 with
        calls := state.calls } := by
  have hcalls : (call (eval config fuel) config function arguments
      (state.pushCall frame)).2.calls = frame :: state.calls := (balanced_call hends).calls
  simp only [State.popCall?, hcalls]

end Eval

namespace Interpreter

/-- What an interpreter answers when it is asked for an evaluation. -/
inductive Answers (it : Interpreter) : Outcome × Interpreter → Prop
  | eval (expr : Value) : Answers it (it.eval expr)
  | evalText (text : Bytes) : Answers it (it.evalText text)
  | load (name : Bytes) (source : Source) : Answers it (it.load name source)
  | apply (function arguments : Value) : Answers it (it.apply function arguments)
  | call (function arguments : Value) : Answers it (it.call function arguments)

/-- An evaluation that is asked of an interpreter and ends, well or badly. -/
def Returns (it after : Interpreter) : Prop :=
  ∃ outcome, outcome ≠ .crashed ∧ Answers it (outcome, after)

/-- Evaluations one after the other are balanced if what is done in between is. -/
theorem balanced_evalAll {each : Interpreter → Value → Interpreter}
    (heach : ∀ (it : Interpreter) value, it.state.Balanced (each it value).state)
    (exprs : List Value) (it : Interpreter) (last : Value)
    (hends : (evalAll each it exprs last).1 ≠ .crashed) :
    it.state.Balanced (evalAll each it exprs last).2.state := by
  induction exprs generalizing it last with
  | nil => exact .refl it.state
  | cons expr rest ih =>
      rw [evalAll] at hends ⊢
      split at hends
      · next value middle hvalue =>
          have hfirst : it.state.Balanced (it.eval expr).2.state :=
            Eval.balanced_eval (by
              change (it.eval expr).1 ≠ .crashed
              simp [hvalue])
          rw [hvalue] at hfirst
          exact (hfirst.trans (heach middle value)).trans (ih _ _ hends)
      · exact Eval.balanced_eval hends

theorem balanced_evalText {it : Interpreter} {text : Bytes}
    (hends : (it.evalText text).1 ≠ .crashed) :
    it.state.Balanced (it.evalText text).2.state := by
  rw [evalText] at hends ⊢
  split at hends
  · exact Eval.balanced_eval hends
  · exact .refl it.state

theorem balanced_load {it : Interpreter} {name : Bytes} {source : Source}
    (hends : (it.load name source).1 ≠ .crashed) :
    it.state.Balanced (it.load name source).2.state := by
  rw [load] at hends ⊢
  split at hends
  · exact .refl it.state
  · split at hends
    · exact balanced_evalAll (fun it _ => .refl it.state) _ it .empty hends
    · exact .refl it.state

/-- One evaluation that ends leaves nothing behind. -/
theorem Returns.balanced {it after : Interpreter} (hreturns : Returns it after) :
    it.state.Balanced after.state := by
  obtain ⟨outcome, hends, hanswers⟩ := hreturns
  generalize hanswer : (outcome, after) = answer at hanswers
  have houtcome : answer.1 ≠ .crashed := by rwa [← hanswer]
  have hafter : after = answer.2 := by rw [← hanswer]
  rw [hafter]
  cases hanswers with
  | eval expr => exact Eval.balanced_eval houtcome
  | evalText text => exact balanced_evalText houtcome
  | load name source => exact balanced_load houtcome
  | apply function arguments => exact Eval.balanced_apply houtcome
  | call function arguments => exact Eval.balanced_call houtcome

/-- No run leaves anything behind. -/
theorem balanced_run {it after : Interpreter} (hrun : Relation.ReflTransGen Returns it after) :
    it.state.Balanced after.state := by
  induction hrun with
  | refl => exact .refl it.state
  | tail _ hstep ih => exact ih.trans hstep.balanced

/-- Evaluation is balanced.  Whenever it ends, with a value or with any failure, the depth
and the functions being applied are what they were before, be it the evaluation of an
expression, an application, the evaluation of a text or of a whole program.  There is always
a function to drop at the end of an application.  So however many evaluations an idle
interpreter has done, it is idle again. -/
theorem evaluation_balanced :
    (∀ config fuel expr scope (state : State),
        (MiniLisp.eval config fuel expr scope state).1 ≠ .crashed →
          state.Balanced (MiniLisp.eval config fuel expr scope state).2) ∧
      (∀ config fuel function arguments (state : State),
        (Eval.apply (MiniLisp.eval config fuel) config function arguments state).1 ≠ .crashed →
          state.Balanced
            (Eval.apply (MiniLisp.eval config fuel) config function arguments state).2) ∧
      (∀ (it : Interpreter) text, (it.evalText text).1 ≠ .crashed →
        it.state.Balanced (it.evalText text).2.state) ∧
      (∀ (it : Interpreter) name source, (it.load name source).1 ≠ .crashed →
        it.state.Balanced (it.load name source).2.state) ∧
      (∀ config fuel function arguments (state : State) frame,
        (Eval.call (MiniLisp.eval config fuel) config function arguments
            (state.pushCall frame)).1 ≠ .crashed →
          ∃ popped, (Eval.call (MiniLisp.eval config fuel) config function arguments
            (state.pushCall frame)).2.popCall? = some popped ∧ state.Balanced popped) ∧
      ∀ it after, it.state.depth = 0 → it.state.calls = [] →
        Relation.ReflTransGen Returns it after →
          after.state.depth = 0 ∧ after.state.calls = [] := by
  refine ⟨fun _ _ _ _ _ => Eval.balanced_eval, fun _ _ _ _ _ => Eval.balanced_apply,
    fun _ _ => balanced_evalText, fun _ _ _ => balanced_load, ?_, ?_⟩
  · intro config fuel function arguments state frame hends
    exact ⟨_, Eval.popCall?_call hends, (Eval.balanced_call hends).depth, rfl⟩
  · intro it after hdepth hcalls hrun
    obtain ⟨hdepth', hcalls'⟩ := balanced_run hrun
    exact ⟨hdepth'.trans hdepth, hcalls'.trans hcalls⟩

/-- A call of a primitive that fails inside of the arguments of another call. -/
def failingCall : Value :=
  .ofList [.primitive (.named (utf8 "LIST")),
    .ofList [.primitive (.named (utf8 "CONS")), .int 1]]

/-- The failure records the function that was being applied, and the interpreter is idle
behind it. -/
theorem evaluation_balanced_failure :
    (∃ failure stack, (blank.eval failingCall).1 = .failed failure ∧
        failure.stack? = some stack ∧ stack.length = 1) ∧
      (blank.eval failingCall).2.state.depth = 0 ∧
      (blank.eval failingCall).2.state.calls = [] := by
  have hfailed : ∃ failure stack, (blank.eval failingCall).1 = .failed failure ∧
      failure.stack? = some stack ∧ stack.length = 1 := ⟨_, _, rfl, rfl, rfl⟩
  refine ⟨hfailed, ?_⟩
  obtain ⟨failure, _, heval, _⟩ := hfailed
  have hends : (blank.eval failingCall).1 ≠ .crashed := by
    rw [heval]
    exact Outcome.noConfusion
  have hreturns : Returns blank (blank.eval failingCall).2 :=
    ⟨_, hends, .eval failingCall⟩
  exact evaluation_balanced.2.2.2.2.2 blank _ rfl rfl (.single hreturns)

end Interpreter

end MiniLisp
