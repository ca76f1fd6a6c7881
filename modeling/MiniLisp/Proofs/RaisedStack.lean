import MiniLisp.Proofs.StackBound

/-!
The stack of a failure.  A failure arises at one moment of an evaluation, and no stack is
recorded in it there.  The first application that it leaves records the functions that are
being applied by then.  These are the functions that were being applied when it arose: by
then every evaluation since has dropped the functions that it applied itself, and the
applications further out find a stack recorded already.
-/

namespace MiniLisp

namespace Eval

/-! ### Where a failure arises -/

/-- A failure as it arises, and the functions being applied at that moment. -/
structure Origin where
  failure : Failure
  calls : CallStack
deriving DecidableEq, Repr

/-- Where the failure of evaluating an expression in the environment with a number arises,
if it fails. -/
abbrev Tracer := Value → (scope : Nat) → State → Option Origin

/-- An outcome that is reached in a state without evaluating anything. -/
def originIn (state : State) : Outcome → Option Origin
  | .failed failure => some ⟨failure, state.calls⟩
  | _ => none

/-- Where the failure of an evaluation arises, or that of what follows its value. -/
def originThen (first : Option Origin) (result : Outcome × State)
    (next : Value → State → Option Origin) : Option Origin :=
  match result with
  | (.value value, state) => next value state
  | _ => first

def argumentsOrigin (ev : Evaluator) (trace : Tracer) (scope : Nat) (all : Value) :
    (rest : Value) → State → Option Origin
  | .pair head tail, state =>
      originThen (trace head scope state) (ev head scope state) fun _ state =>
        argumentsOrigin ev trace scope all tail state
  | ending, state =>
      if ending.isEmpty then none else originIn state (.fail (.improperCall all))

def bodyOrigin (ev : Evaluator) (trace : Tracer) (scope : Nat) :
    (rest : Value) → State → Option Origin
  | .pair head tail, state =>
      originThen (trace head scope state) (ev head scope state) fun _ state =>
        bodyOrigin ev trace scope tail state
  | _, _ => none

/-- Where the failure of a call arises: in the primitive, where the parameters of a closure
are bound, or in its body. -/
def callOrigin (ev : Evaluator) (trace : Tracer) (config : Config)
    (function arguments : Value) (state : State) : Option Origin :=
  match function with
  | .primitive primitive => originIn state (primitive.call arguments state.out).1
  | .closure name parameters expressions scope =>
      match scope.bind (state.envs[·]?) with
      | none => none
      | some env =>
          match bind config name parameters parameters arguments env with
          | .error reason => originIn state (.fail reason)
          | .ok env =>
              let (scope, state) := state.addEnv env
              bodyOrigin ev trace scope expressions state
  | _ => none

/-- Where the failure of an application arises.  The function is being applied from before
the call on. -/
def applyOrigin (ev : Evaluator) (trace : Tracer) (config : Config)
    (function arguments : Value) (state : State) : Option Origin :=
  match Frame.of? function with
  | none => originIn state (.fail (.notFunction function))
  | some frame => callOrigin ev trace config function arguments (state.pushCall frame)

def applicationOrigin (ev : Evaluator) (trace : Tracer) (config : Config)
    (head tail : Value) (scope : Nat) (state : State) : Option Origin :=
  originThen (trace head scope state) (ev head scope state) fun function state =>
    if (Frame.of? function).isNone then originIn state (.fail (.notFunction function))
    else
      originThen (argumentsOrigin ev trace scope tail tail state)
        (arguments ev scope tail tail [] state) fun values state =>
          applyOrigin ev trace config function values state

def conditionalOrigin (ev : Evaluator) (trace : Tracer) (tail : Value) (scope : Nat)
    (state : State) : Option Origin :=
  match checkedArguments Symbol.ifForm.name ⟨2, some 3⟩ tail with
  | .error reason => originIn state (.fail reason)
  | .ok (test :: yes :: rest) =>
      originThen (trace test scope state) (ev test scope state) fun value state =>
        if value.isTrue then trace yes scope state
        else
          match rest with
          | [] => none
          | no :: _ => trace no scope state
  | .ok _ => none

def definitionOrigin (trace : Tracer) (tail : Value) (scope : Nat) (state : State) :
    Option Origin :=
  match checkedArguments Symbol.defineForm.name (.exactly 2) tail with
  | .error reason => originIn state (.fail reason)
  | .ok (target :: expression :: _) =>
      match definedName .defineForm target with
      | .error reason => originIn state (.fail reason)
      | .ok _ => trace expression scope state
  | .ok _ => none

/-- Where the failure of an expression arises, given where those of its parts do. -/
def expressionOrigin (ev : Evaluator) (trace : Tracer) (config : Config) (expr : Value)
    (scope : Nat) (state : State) : Option Origin :=
  match expr with
  | .symbol name => originIn state (symbol name scope state)
  | .pair head tail =>
      if head = .symbol .ifForm then conditionalOrigin ev trace tail scope state
      else if head = .symbol .defineForm then definitionOrigin trace tail scope state
      else if head = .symbol .defunForm then
        originIn state (functionDefinition tail scope state).1
      else if head = .symbol .quoteForm then originIn state (quotation tail state).1
      else applicationOrigin ev trace config head tail scope state
  | _ => none

end Eval

/-- Where the failure of an evaluation arises, if it fails: beyond the limit on the depth, or
in a part of the expression. -/
def origin? (config : Config) : (fuel : Nat) → Eval.Tracer
  | 0, _, _, _ => none
  | fuel + 1, expr, scope, state =>
      let entered := state.enter
      if config.exceeds entered.depth then
        Eval.originIn entered (.fail (.depthExceeded config.maxDepth))
      else
        Eval.expressionOrigin (eval config fuel) (origin? config fuel) config expr scope entered

/-! ### Recording the stack -/

theorem Failure.mapSignal_mapSignal (f g : Signal → Signal) (failure : Failure) :
    (failure.mapSignal f).mapSignal g = failure.mapSignal (g ∘ f) := by
  induction failure with
  | context label inner ih => simp only [mapSignal, ih]
  | _ => rfl

/-- A stack that is recorded stays. -/
theorem Failure.attachStack_attachStack (failure : Failure) (inner outer : CallStack) :
    (failure.attachStack inner).attachStack outer = failure.attachStack inner := by
  rw [attachStack, attachStack, mapSignal_mapSignal]
  congr 1
  funext signal
  cases hstack : signal.stack <;> simp [hstack]

theorem Failure.stack?_attachStack_of_none {failure : Failure} (hsignal : failure.signal? ≠ none)
    (hstack : failure.stack? = none) (stack : CallStack) :
    (failure.attachStack stack).stack? = some stack := by
  obtain ⟨signal, hsome⟩ := Option.ne_none_iff_exists'.mp hsignal
  have hnone : signal.stack = none := by simpa [stack?, hsome] using hstack
  simp [stack?, attachStack, signal?_mapSignal, hsome, hnone]

theorem Failure.signal?_attachStack (failure : Failure) (stack : CallStack) :
    (failure.attachStack stack).signal? ≠ none ↔ failure.signal? ≠ none := by
  simp [attachStack, signal?_mapSignal]

namespace Eval

/-- The failure outside of an evaluation that began while the functions `outer` were being
applied: if it arose in an application since, the stack is recorded. -/
def Origin.outside (origin : Origin) (outer : CallStack) : Failure :=
  if origin.calls = outer then origin.failure else origin.failure.attachStack origin.calls

/-- The outcome of an evaluation that began while the functions `outer` were being applied
is the failure that arose at the origin, or no failure if there is no origin. -/
def Traces (outer : CallStack) (origin : Option Origin) : Outcome → Prop
  | .failed failure =>
      ∃ raised, origin = some raised ∧ raised.failure.stack? = none ∧
        outer <:+ raised.calls ∧ failure = raised.outside outer
  | _ => origin = none

/-- What traces the parts of an expression: their failures are traced, and their evaluations
drop the functions that they apply. -/
structure Traced (ev : Evaluator) (trace : Tracer) : Prop where
  traces (expr : Value) (scope : Nat) (state : State) :
    Traces state.calls (trace expr scope state) (ev expr scope state).1
  calls (expr : Value) (scope : Nat) (state : State)
    (houtcome : (ev expr scope state).1 ≠ .crashed) :
    (ev expr scope state).2.calls = state.calls

/-- A failure that arises right away. -/
theorem traces_originIn {outcome : Outcome} (state : State) (houtcome : outcome.Unrecorded) :
    Traces state.calls (originIn state outcome) outcome := by
  cases outcome with
  | failed failure =>
      refine ⟨⟨failure, state.calls⟩, rfl, houtcome failure rfl, List.suffix_refl _, ?_⟩
      rw [Origin.outside, if_pos rfl]
  | _ => rfl

theorem traces_fail (state : State) (reason : Reason) :
    Traces state.calls (originIn state (.fail reason)) (.fail reason) :=
  traces_originIn state (Outcome.unrecorded_fail reason)

theorem traces_andThen {outer : CallStack} {first : Option Origin}
    {result : Outcome × State} {next : Value → State → Outcome × State}
    {nextOrigin : Value → State → Option Origin} (hfirst : Traces outer first result.1)
    (hnext : ∀ value middle, result = (.value value, middle) →
      Traces outer (nextOrigin value middle) (next value middle).1) :
    Traces outer (originThen first result nextOrigin) (andThen result next).1 := by
  obtain ⟨outcome, middle⟩ := result
  cases outcome with
  | value value => exact hnext value middle rfl
  | _ => exact hfirst

section

variable {config : Config} {ev : Evaluator} {trace : Tracer} {state : State}

/-- A part that gives a value leaves the functions being applied as they were. -/
theorem Traced.calls_of_value (htraced : Traced ev trace) {expr value : Value} {scope : Nat}
    {middle : State} (hvalue : ev expr scope state = (.value value, middle)) :
    middle.calls = state.calls := by
  have hcalls := htraced.calls expr scope state
  rw [hvalue] at hcalls
  exact hcalls Outcome.noConfusion

theorem traces_arguments (htraced : Traced ev trace) (scope : Nat) (all rest : Value)
    (found : List Value) (state : State) :
    Traces state.calls (argumentsOrigin ev trace scope all rest state)
      (arguments ev scope all rest found state).1 := by
  induction rest generalizing found state with
  | pair head tail _ ih =>
      rw [argumentsOrigin, arguments_pair]
      refine traces_andThen (htraced.traces head scope state) ?_
      intro value middle hvalue
      rw [← htraced.calls_of_value hvalue]
      exact ih (value :: found) middle
  | _ =>
      rw [argumentsOrigin, arguments]
      · split_ifs
        · rfl
        · exact traces_fail state _
      · exact fun _ _ => Value.noConfusion
      · exact fun _ _ => Value.noConfusion

theorem traces_body (htraced : Traced ev trace) (scope : Nat) (rest last : Value)
    (state : State) :
    Traces state.calls (bodyOrigin ev trace scope rest state)
      (body ev scope rest last state).1 := by
  induction rest generalizing last state with
  | pair head tail _ ih =>
      rw [bodyOrigin, body_pair]
      refine traces_andThen (htraced.traces head scope state) ?_
      intro value middle hvalue
      rw [← htraced.calls_of_value hvalue]
      exact ih value middle
  | _ => rfl

theorem traces_call (htraced : Traced ev trace) (function arguments : Value)
    (state : State) :
    Traces state.calls (callOrigin ev trace config function arguments state)
      (call ev config function arguments state).1 := by
  cases function with
  | primitive primitive =>
      exact traces_originIn state (primitive.unrecorded_call arguments state.out)
  | closure name parameters expressions scope =>
      rw [callOrigin, call, callClosure]
      cases scope.bind (state.envs[·]?) with
      | none => rfl
      | some env =>
          dsimp only
          cases bind config name parameters parameters arguments env with
          | error reason => exact traces_fail state reason
          | ok bound =>
              exact traces_body htraced _ expressions .empty (state.addEnv bound).2
  | _ => rfl

/-- The end of an application records the stack of a failure that arose in the function
itself, and leaves the stack of one that arose further in. -/
theorem traces_finish {origin : Option Origin} {result : Outcome × State} {frame : Frame}
    {below : CallStack} (hcall : Traces (frame :: below) origin result.1)
    (hcalls : result.1 ≠ .crashed → result.2.calls = frame :: below) :
    Traces below origin (finish result).1 := by
  obtain ⟨outcome, after⟩ := result
  by_cases hcrashed : outcome = .crashed
  · subst hcrashed
    exact hcall
  · rw [finish_of_ne_crashed hcrashed (hcalls hcrashed)]
    cases outcome with
    | failed failure =>
        obtain ⟨raised, horigin, hnone, hsuffix, hfailure⟩ := hcall
        have hlonger := hsuffix.length_le
        have hinside : raised.calls ≠ below := by
          rintro rfl
          rw [List.length_cons] at hlonger
          omega
        refine ⟨raised, horigin, hnone, (List.suffix_cons _ _).trans hsuffix, ?_⟩
        rw [hfailure, Origin.outside, Origin.outside, if_neg hinside]
        split_ifs with hhere
        · rw [hhere]
        · exact Failure.attachStack_attachStack _ _ _
    | crashed => exact absurd rfl hcrashed
    | value value => exact hcall
    | exhausted => exact hcall

theorem traces_apply (htraced : Traced ev trace) (function arguments : Value)
    (state : State) :
    Traces state.calls (applyOrigin ev trace config function arguments state)
      (apply ev config function arguments state).1 := by
  cases hframe : Frame.of? function with
  | none =>
      simp only [applyOrigin, apply, hframe]
      exact traces_fail state _
  | some frame =>
      simp only [applyOrigin, apply, hframe]
      exact traces_finish (traces_call htraced function arguments (state.pushCall frame))
        ((effect_calls config).call htraced.calls State.globalScope function arguments
          (state.pushCall frame))

theorem traces_application (htraced : Traced ev trace) (head tail : Value) (scope : Nat)
    (state : State) :
    Traces state.calls (applicationOrigin ev trace config head tail scope state)
      (application ev config head tail scope state).1 := by
  rw [applicationOrigin, application_eq]
  refine traces_andThen (htraced.traces head scope state) ?_
  intro function middle hfunction
  rw [← htraced.calls_of_value hfunction, applyTo]
  split_ifs
  · exact traces_fail middle _
  · refine traces_andThen (traces_arguments htraced scope tail tail [] middle) ?_
    intro values last hvalues
    have hcalls := (effect_calls config).arguments htraced.calls scope tail tail [] middle
    rw [hvalues] at hcalls
    rw [← hcalls Outcome.noConfusion]
    exact traces_apply htraced function values last

theorem traces_conditional (htraced : Traced ev trace) (tail : Value) (scope : Nat)
    (state : State) :
    Traces state.calls (conditionalOrigin ev trace tail scope state)
      (conditional ev tail scope state).1 := by
  cases hitems : checkedArguments Symbol.ifForm.name ⟨2, some 3⟩ tail with
  | error reason =>
      simp only [conditionalOrigin, conditional, hitems]
      exact traces_fail state reason
  | ok items =>
      rcases items with _ | ⟨test, _ | ⟨yes, rest⟩⟩
      · simp only [conditionalOrigin, conditional, hitems]
        rfl
      · simp only [conditionalOrigin, conditional, hitems]
        rfl
      · simp only [conditionalOrigin, hitems]
        rw [conditional_eq ev hitems]
        refine traces_andThen (htraced.traces test scope state) ?_
        intro value middle hvalue
        rw [← htraced.calls_of_value hvalue]
        unfold branch
        split_ifs
        · exact htraced.traces yes scope middle
        · cases rest with
          | nil => rfl
          | cons no rest => exact htraced.traces no scope middle

theorem traces_definition (htraced : Traced ev trace) (tail : Value) (scope : Nat)
    (state : State) :
    Traces state.calls (definitionOrigin trace tail scope state)
      (definition ev tail scope state).1 := by
  cases hitems : checkedArguments Symbol.defineForm.name (.exactly 2) tail with
  | error reason =>
      simp only [definitionOrigin, definition, hitems]
      exact traces_fail state reason
  | ok items =>
      rcases items with _ | ⟨target, _ | ⟨expr, rest⟩⟩
      · simp only [definitionOrigin, definition, hitems]
        rfl
      · simp only [definitionOrigin, definition, hitems]
        rfl
      · cases hname : definedName .defineForm target with
        | error reason =>
            simp only [definitionOrigin, definition, hitems, hname]
            exact traces_fail state reason
        | ok name =>
            have hexpr := htraced.traces expr scope state
            simp only [definitionOrigin, hitems, hname]
            rw [definition_eq ev hitems hname]
            generalize ev expr scope state = result at hexpr ⊢
            obtain ⟨outcome, middle⟩ := result
            cases outcome <;> exact hexpr

/-- Nothing is evaluated for a function definition or a quotation. -/
theorem unrecorded_functionDefinition (tail : Value) (scope : Nat) (state : State) :
    (functionDefinition tail scope state).1.Unrecorded := by
  fun_cases functionDefinition tail scope state with
  | case1 reason => exact Outcome.unrecorded_fail reason
  | case2 target parameters rest hitems reason => exact Outcome.unrecorded_fail reason
  | case3 target parameters rest hitems name => exact Outcome.unrecorded_value _
  | case4 => exact Outcome.unrecorded_crashed

@[inherit_doc unrecorded_functionDefinition]
theorem unrecorded_quotation (tail : Value) (state : State) :
    (quotation tail state).1.Unrecorded := by
  fun_cases quotation tail state with
  | case1 reason => exact Outcome.unrecorded_fail reason
  | case2 value => exact Outcome.unrecorded_value value
  | case3 => exact Outcome.unrecorded_crashed

theorem unrecorded_symbol (name : Symbol) (scope : Nat) (state : State) :
    (symbol name scope state).Unrecorded := by
  rw [symbol]
  split
  · exact Outcome.unrecorded_crashed
  · split
    · exact Outcome.unrecorded_value _
    · exact Outcome.unrecorded_fail _

/-- What traces the failures of the parts of an expression traces those of the whole. -/
theorem traces_expression (htraced : Traced ev trace) (expr : Value) (scope : Nat)
    (state : State) :
    Traces state.calls (expressionOrigin ev trace config expr scope state)
      (expression ev config expr scope state).1 := by
  cases expr with
  | symbol name => exact traces_originIn state (unrecorded_symbol name scope state)
  | pair head tail =>
      rw [expressionOrigin, expression, pair]
      split_ifs
      · exact traces_conditional htraced tail scope state
      · exact traces_definition htraced tail scope state
      · exact traces_originIn state (unrecorded_functionDefinition tail scope state)
      · exact traces_originIn state (unrecorded_quotation tail state)
      · exact traces_application htraced head tail scope state
  | _ => rfl

end

/-- Every failure of an evaluation is traced to where it arises. -/
theorem traced_eval (config : Config) (fuel : Nat) :
    Traced (eval config fuel) (origin? config fuel) := by
  induction fuel with
  | zero => exact ⟨fun _ _ _ => rfl, (effect_calls config).eval 0⟩
  | succ fuel ih =>
      refine ⟨?_, (effect_calls config).eval (fuel + 1)⟩
      intro expr scope state
      rw [origin?, eval]
      split_ifs
      · exact traces_fail state.enter _
      · exact traces_expression ih expr scope state.enter

/-- Outside of an evaluation that began with nothing to do, a failure records the functions
that were being applied where it arose. -/
theorem Traces.stack?_of_idle {origin : Option Origin} {failure : Failure}
    (htraces : Traces [] origin (.failed failure)) (hsignal : failure.signal? ≠ none) :
    ∃ raised, origin = some raised ∧ failure = raised.outside [] ∧
      failure.stack? = if raised.calls = [] then none else some raised.calls := by
  obtain ⟨raised, horigin, hnone, _, rfl⟩ := htraces
  refine ⟨raised, horigin, rfl, ?_⟩
  rw [Origin.outside] at hsignal ⊢
  split_ifs at hsignal ⊢
  · exact hnone
  · rw [Failure.signal?_attachStack] at hsignal
    exact Failure.stack?_attachStack_of_none hsignal hnone raised.calls

end Eval

/-- The stack recorded in a failure is the stack at the moment at which the failure arose.
Whenever an evaluation or application that began with no functions being applied fails with
a signal, the failure arose at one moment of it, and is the same but for the stack: those
that were being applied at that moment, with the function that failed among them, or none if
there were none. -/
theorem failure_records_raising_stack :
    (∀ config fuel expr scope (state : State) failure, state.calls = [] →
        (eval config fuel expr scope state).1 = .failed failure → failure.signal? ≠ none →
        ∃ raised, origin? config fuel expr scope state = some raised ∧
          failure = raised.outside [] ∧
          failure.stack? = if raised.calls = [] then none else some raised.calls) ∧
      ∀ config fuel function arguments (state : State) failure, state.calls = [] →
        (Eval.apply (eval config fuel) config function arguments state).1 = .failed failure →
        failure.signal? ≠ none →
        ∃ raised, Eval.applyOrigin (eval config fuel) (origin? config fuel) config function
            arguments state = some raised ∧
          failure = raised.outside [] ∧
          failure.stack? = if raised.calls = [] then none else some raised.calls := by
  constructor
  · intro config fuel expr scope state failure hidle hfailed hsignal
    have htraces := (Eval.traced_eval config fuel).traces expr scope state
    rw [hidle, hfailed] at htraces
    exact htraces.stack?_of_idle hsignal
  · intro config fuel function arguments state failure hidle hfailed hsignal
    have htraces := @Eval.traces_apply config _ _ (Eval.traced_eval config fuel) function
      arguments state
    rw [hidle, hfailed] at htraces
    exact htraces.stack?_of_idle hsignal

/-- A function whose body calls a primitive with too few arguments, called for an argument
of another call. -/
def failingBody : Value :=
  .ofList [.primitive (.named (utf8 "LIST")),
    .ofList [.closure ⟨utf8 "F"⟩ .empty
      (.ofList [.ofList [.primitive (.named (utf8 "CONS")), .int 1]])
      (some State.globalScope)]]

/-- The failure leaves the primitive and the function, and records both. -/
theorem failure_records_raising_stack_body :
    ∃ failure,
      (eval ⟨100, false⟩ 8 failingBody State.globalScope Interpreter.blank.state).1 =
          .failed failure ∧
        failure.signal? ≠ none ∧
        failure.stack? = some [⟨utf8 "CONS", .primitive⟩, ⟨utf8 "F", .closure⟩] := by
  have hcalls : (origin? ⟨100, false⟩ 8 failingBody State.globalScope
      Interpreter.blank.state).map (·.calls) =
        some [⟨utf8 "CONS", .primitive⟩, ⟨utf8 "F", .closure⟩] := by decide +kernel
  have hfails : (match (eval ⟨100, false⟩ 8 failingBody State.globalScope
        Interpreter.blank.state).1 with
      | .failed failure => failure.signal?.isSome
      | _ => false) = true := by decide +kernel
  split at hfails
  · next failure hfailed =>
      have hsignal : failure.signal? ≠ none := Option.isSome_iff_ne_none.mp hfails
      obtain ⟨raised, horigin, _, hstack⟩ := failure_records_raising_stack.1 ⟨100, false⟩ 8
        failingBody State.globalScope Interpreter.blank.state failure rfl hfailed hsignal
      rw [horigin, Option.map_some, Option.some.injEq] at hcalls
      rw [hcalls, if_neg (List.cons_ne_nil _ _)] at hstack
      exact ⟨failure, hfailed, hsignal, hstack⟩
  · cases hfails

end MiniLisp
