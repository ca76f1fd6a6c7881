import MiniLisp.Proofs.DepthLimit
import MiniLisp.Proofs.Safety

/-!
The limit on the depth of evaluation bounds the functions being applied.  An evaluation
passes through moments: it begins and ends, and so does every application in it.  At every
moment there are at least as many evaluations nested as functions being applied, and the
limit stops evaluations that nest too deeply.  With the limit, every evaluation finishes.
-/

namespace MiniLisp

namespace Eval

/-! ### Moments -/

/-- The moments of evaluating an expression in the environment with a number. -/
abbrev Watch := Value → (scope : Nat) → State → List State

/-- The moments of an evaluation with a result, and those of what follows its value. -/
def momentsThen (first : List State) (result : Outcome × State)
    (next : Value → State → List State) : List State :=
  match result with
  | (.value value, state) => first ++ next value state
  | _ => first

/-- The moments of evaluating expressions in order, up to the first without a value. -/
def sequenceMoments (ev : Evaluator) (watch : Watch) (scope : Nat) :
    (rest : Value) → State → List State
  | .pair head tail, state =>
      momentsThen (watch head scope state) (ev head scope state) fun _ state =>
        sequenceMoments ev watch scope tail state
  | _, _ => []

/-- The moments of a call: those of the body of a closure. -/
def callMoments (ev : Evaluator) (watch : Watch) (config : Config)
    (function arguments : Value) (state : State) : List State :=
  match function with
  | .closure name parameters expressions scope =>
      match scope.bind (state.envs[·]?) with
      | none => []
      | some env =>
          match bind config name parameters parameters arguments env with
          | .error _ => []
          | .ok env =>
              let (scope, state) := state.addEnv env
              sequenceMoments ev watch scope expressions state
  | _ => []

/-- The moments of an application: it begins, goes on and is about to end. -/
def applyMoments (ev : Evaluator) (watch : Watch) (config : Config)
    (function arguments : Value) (state : State) : List State :=
  match Frame.of? function with
  | none => []
  | some frame =>
      let state := state.pushCall frame
      state :: callMoments ev watch config function arguments state ++
        [(call ev config function arguments state).2]

def applicationMoments (ev : Evaluator) (watch : Watch) (config : Config)
    (head tail : Value) (scope : Nat) (state : State) : List State :=
  momentsThen (watch head scope state) (ev head scope state) fun function state =>
    if (Frame.of? function).isNone then []
    else
      momentsThen (sequenceMoments ev watch scope tail state)
        (arguments ev scope tail tail [] state) fun values state =>
          applyMoments ev watch config function values state

def conditionalMoments (ev : Evaluator) (watch : Watch) (tail : Value) (scope : Nat)
    (state : State) : List State :=
  match checkedArguments Symbol.ifForm.name ⟨2, some 3⟩ tail with
  | .ok (test :: yes :: rest) =>
      momentsThen (watch test scope state) (ev test scope state) fun value state =>
        if value.isTrue then watch yes scope state
        else
          match rest with
          | [] => []
          | no :: _ => watch no scope state
  | _ => []

def definitionMoments (watch : Watch) (tail : Value) (scope : Nat) (state : State) :
    List State :=
  match checkedArguments Symbol.defineForm.name (.exactly 2) tail with
  | .ok (target :: expression :: _) =>
      match definedName .defineForm target with
      | .ok _ => watch expression scope state
      | .error _ => []
  | _ => []

def expressionMoments (ev : Evaluator) (watch : Watch) (config : Config) (expr : Value)
    (scope : Nat) (state : State) : List State :=
  match expr with
  | .pair head tail =>
      if head = .symbol .ifForm then conditionalMoments ev watch tail scope state
      else if head = .symbol .defineForm then definitionMoments watch tail scope state
      else if head = .symbol .defunForm then []
      else if head = .symbol .quoteForm then []
      else applicationMoments ev watch config head tail scope state
  | _ => []

end Eval

/-- The moments of an evaluation: it begins, evaluates the parts of the expression unless
that nests too deeply, and ends. -/
def moments (config : Config) : (fuel : Nat) → Eval.Watch
  | 0, _, _, _ => []
  | fuel + 1, expr, scope, state =>
      let entered := state.enter
      let parts :=
        if config.exceeds entered.depth then []
        else
          Eval.expressionMoments (eval config fuel) (moments config fuel) config expr scope
            entered
      entered :: parts ++ [(eval config (fuel + 1) expr scope state).2]

/-! ### Stacks -/

theorem Failure.stack?_attachStack {failure : Failure} {stack recorded : CallStack}
    (hstack : (failure.attachStack stack).stack? = some recorded) :
    failure.stack? = some recorded ∨ recorded = stack := by
  simp only [Failure.stack?, Failure.attachStack, Failure.signal?_mapSignal] at hstack ⊢
  cases hsignal : failure.signal? with
  | none => simp [hsignal] at hstack
  | some signal =>
      cases hold : signal.stack with
      | none =>
          simp only [hsignal, hold, Option.map_some, Option.bind_some, Option.none_or,
            Option.some.injEq] at hstack
          exact .inr hstack.symm
      | some old => exact .inl (by simpa [hsignal, hold] using hstack)

namespace Outcome

/-- An outcome that records no functions being applied. -/
def Unrecorded (outcome : Outcome) : Prop :=
  ∀ failure, outcome = .failed failure → failure.stack? = none

theorem unrecorded_value (value : Value) : (Outcome.value value).Unrecorded :=
  fun _ hfailed => nomatch hfailed

theorem unrecorded_crashed : Outcome.crashed.Unrecorded :=
  fun _ hfailed => nomatch hfailed

theorem unrecorded_fail (reason : Reason) : (fail reason).Unrecorded := by
  rintro failure hfailed
  cases hfailed
  rfl

end Outcome

/-- A primitive knows nothing of the functions being applied. -/
theorem Primitive.unrecorded_call (primitive : Primitive) (arguments : Value) (out : Sink) :
    (primitive.call arguments out).1.Unrecorded := by
  intro failure hfailed
  rcases primitive.call_cases arguments out with ⟨reason, hreason⟩ | ⟨items, _, hmakes⟩
  · rw [hfailed] at hreason
    cases hreason
    rfl
  · rw [hfailed] at hmakes
    cases hmakes <;> rfl

/-! ### The bound -/

/-- No more functions are being applied than evaluations are nested, and those are within
the limit. -/
structure State.Fits (limit : Int) (state : State) : Prop where
  calls : state.calls.length ≤ state.depth
  depth : (state.depth : Int) ≤ limit

/-- One more function can be applied. -/
structure State.HasRoom (limit : Int) (state : State) : Prop where
  calls : state.calls.length < state.depth
  depth : (state.depth : Int) ≤ limit

theorem State.HasRoom.fits {limit : Int} {state : State} (hroom : state.HasRoom limit) :
    state.Fits limit :=
  ⟨Nat.le_of_lt hroom.calls, hroom.depth⟩

theorem State.HasRoom.pushCall {limit : Int} {state : State} (hroom : state.HasRoom limit)
    (frame : Frame) : (state.pushCall frame).Fits limit :=
  ⟨hroom.calls, hroom.depth⟩

theorem State.Fits.of_balanced {limit : Int} {state after : State}
    (hfits : state.Fits limit) (hdepth : after.depth = state.depth)
    (hcalls : after.calls = state.calls) : after.Fits limit := by
  refine ⟨?_, ?_⟩
  · rw [hcalls, hdepth]
    exact hfits.calls
  · rw [hdepth]
    exact hfits.depth

theorem State.HasRoom.of_balanced {limit : Int} {state after : State}
    (hroom : state.HasRoom limit) (hdepth : after.depth = state.depth)
    (hcalls : after.calls = state.calls) : after.HasRoom limit := by
  refine ⟨?_, ?_⟩
  · rw [hcalls, hdepth]
    exact hroom.calls
  · rw [hdepth]
    exact hroom.depth

theorem State.Fits.length_le {limit : Int} {state : State} (hfits : state.Fits limit) :
    (state.calls.length : Int) ≤ limit := by
  have hcalls := hfits.calls
  have hdepth := hfits.depth
  omega

namespace Eval

/-- At every moment of an evaluation with a result, and behind it, the functions being
applied are within the limit.  A failure records those of one of the moments. -/
structure Bounded (limit : Int) (moments : List State) (result : Outcome × State) : Prop where
  calls (moment : State) (hmoment : moment ∈ moments) : (moment.calls.length : Int) ≤ limit
  after : (result.2.calls.length : Int) ≤ limit
  stack (failure : Failure) (stack : CallStack) (hfailed : result.1 = .failed failure)
    (hstack : failure.stack? = some stack) : ∃ moment ∈ moments, moment.calls = stack

/-- What bounds the parts of an expression: their evaluations are bounded and balanced. -/
structure Watched (limit : Int) (ev : Evaluator) (watch : Watch) : Prop where
  bounded (expr : Value) (scope : Nat) {state : State} (hfits : state.Fits limit) :
    Bounded limit (watch expr scope state) (ev expr scope state)
  depth (expr : Value) (scope : Nat) (state : State) :
    (ev expr scope state).2.depth = state.depth
  calls (expr : Value) (scope : Nat) (state : State)
    (houtcome : (ev expr scope state).1 ≠ .crashed) :
    (ev expr scope state).2.calls = state.calls

theorem Bounded.stop {limit : Int} {state : State} {outcome : Outcome}
    (hfits : state.Fits limit) (houtcome : outcome.Unrecorded) :
    Bounded limit [] (outcome, state) where
  calls moment hmoment := absurd hmoment (List.not_mem_nil)
  after := hfits.length_le
  stack failure stack hfailed hstack := by
    rw [houtcome failure hfailed] at hstack
    cases hstack

theorem Bounded.andThen {limit : Int} {moments : List State} {first : Outcome × State}
    {next : Value → State → Outcome × State} {nextMoments : Value → State → List State}
    (hfirst : Bounded limit moments first)
    (hnext : ∀ value middle, first = (.value value, middle) →
      Bounded limit (nextMoments value middle) (next value middle)) :
    Bounded limit (momentsThen moments first nextMoments) (andThen first next) := by
  obtain ⟨outcome, middle⟩ := first
  cases outcome with
  | value value =>
      have hrest := hnext value middle rfl
      refine ⟨?_, hrest.after, ?_⟩
      · intro moment hmoment
        rcases List.mem_append.mp hmoment with hmoment | hmoment
        · exact hfirst.calls moment hmoment
        · exact hrest.calls moment hmoment
      · intro failure stack hfailed hstack
        obtain ⟨moment, hmoment, hcalls⟩ := hrest.stack failure stack hfailed hstack
        exact ⟨moment, List.mem_append_right _ hmoment, hcalls⟩
  | _ => exact hfirst

section

variable {limit : Int} {ev : Evaluator} {watch : Watch} {config : Config} {state : State}

/-- A part that gives a value leaves the room that there was. -/
theorem Watched.balanced (hwatched : Watched limit ev watch) {expr value : Value}
    {scope : Nat} {middle : State} (hvalue : ev expr scope state = (.value value, middle)) :
    middle.depth = state.depth ∧ middle.calls = state.calls := by
  have hdepth := hwatched.depth expr scope state
  have hcalls := hwatched.calls expr scope state
  rw [hvalue] at hdepth hcalls
  exact ⟨hdepth, hcalls Outcome.noConfusion⟩

theorem Watched.fits (hwatched : Watched limit ev watch) {expr value : Value}
    {scope : Nat} {middle : State} (hfits : state.Fits limit)
    (hvalue : ev expr scope state = (.value value, middle)) : middle.Fits limit := by
  obtain ⟨hdepth, hcalls⟩ := hwatched.balanced hvalue
  exact hfits.of_balanced hdepth hcalls

theorem Watched.hasRoom (hwatched : Watched limit ev watch) {expr value : Value}
    {scope : Nat} {middle : State} (hroom : state.HasRoom limit)
    (hvalue : ev expr scope state = (.value value, middle)) : middle.HasRoom limit := by
  obtain ⟨hdepth, hcalls⟩ := hwatched.balanced hvalue
  exact hroom.of_balanced hdepth hcalls

theorem bounded_arguments (hwatched : Watched limit ev watch) (scope : Nat) (all rest : Value)
    (found : List Value) (hfits : state.Fits limit) :
    Bounded limit (sequenceMoments ev watch scope rest state)
      (arguments ev scope all rest found state) := by
  induction rest generalizing found state with
  | pair head tail _ ih =>
      rw [sequenceMoments, arguments_pair]
      refine (hwatched.bounded head scope hfits).andThen ?_
      intro value middle hvalue
      exact ih _ (hwatched.fits hfits hvalue)
  | _ =>
      rw [sequenceMoments, arguments]
      · split_ifs
        · exact .stop hfits (Outcome.unrecorded_value _)
        · exact .stop hfits (Outcome.unrecorded_fail _)
      · exact fun _ _ => Value.noConfusion
      · exact fun _ _ => Value.noConfusion

theorem bounded_body (hwatched : Watched limit ev watch) (scope : Nat) (rest last : Value)
    (hfits : state.Fits limit) :
    Bounded limit (sequenceMoments ev watch scope rest state)
      (body ev scope rest last state) := by
  induction rest generalizing last state with
  | pair head tail _ ih =>
      rw [sequenceMoments, body_pair]
      refine (hwatched.bounded head scope hfits).andThen ?_
      intro value middle hvalue
      exact ih value (hwatched.fits hfits hvalue)
  | _ => exact .stop hfits (Outcome.unrecorded_value last)

theorem bounded_call (hwatched : Watched limit ev watch) (function arguments : Value)
    (hfits : state.Fits limit) :
    Bounded limit (callMoments ev watch config function arguments state)
      (call ev config function arguments state) := by
  cases function with
  | primitive primitive =>
      have hcall := Bounded.stop hfits (primitive.unrecorded_call arguments state.out)
      exact ⟨hcall.calls, hcall.after, hcall.stack⟩
  | closure name parameters expressions scope =>
      rw [callMoments, call, callClosure]
      cases scope.bind (state.envs[·]?) with
      | none => exact .stop hfits Outcome.unrecorded_crashed
      | some env =>
          dsimp only
          cases bind config name parameters parameters arguments env with
          | error reason => exact .stop hfits (Outcome.unrecorded_fail reason)
          | ok bound =>
              exact bounded_body hwatched _ expressions .empty ⟨hfits.calls, hfits.depth⟩
  | _ => exact .stop hfits Outcome.unrecorded_crashed

/-- The end of an application records the functions being applied just before it. -/
theorem Bounded.finish {moments : List State} {result : Outcome × State} {frame : Frame}
    {below : CallStack} (hresult : Bounded limit moments result)
    (hcalls : result.1 ≠ .crashed → result.2.calls = frame :: below) :
    Bounded limit (moments ++ [result.2]) (finish result) := by
  obtain ⟨outcome, after⟩ := result
  have hmoments : ∀ moment ∈ moments ++ [after], (moment.calls.length : Int) ≤ limit := by
    intro moment hmoment
    rcases List.mem_append.mp hmoment with hmoment | hmoment
    · exact hresult.calls moment hmoment
    · rw [List.mem_singleton.mp hmoment]
      exact hresult.after
  by_cases hcrashed : outcome = .crashed
  · subst hcrashed
    refine ⟨hmoments, hresult.after, ?_⟩
    intro failure stack hfailed
    cases hfailed
  · have hpushed := hcalls hcrashed
    have hafter : (after.calls.length : Int) ≤ limit := hresult.after
    rw [finish_of_ne_crashed hcrashed hpushed]
    refine ⟨hmoments, ?_, ?_⟩
    · rw [show after.calls = frame :: below from hpushed, List.length_cons] at hafter
      dsimp only
      omega
    · intro failure stack hfailed hstack
      cases outcome with
      | failed inner =>
          cases hfailed
          rcases Failure.stack?_attachStack hstack with hinner | rfl
          · obtain ⟨moment, hmoment, heq⟩ := hresult.stack inner stack rfl hinner
            exact ⟨moment, List.mem_append_left _ hmoment, heq⟩
          · exact ⟨after, List.mem_append_right _ (List.mem_singleton.mpr rfl), hpushed⟩
      | _ => cases hfailed

/-- An application begins with one function more, and ends without it. -/
theorem bounded_apply (hwatched : Watched limit ev watch) (function arguments : Value)
    (hroom : state.HasRoom limit) :
    Bounded limit (applyMoments ev watch config function arguments state)
      (apply ev config function arguments state) := by
  cases hframe : Frame.of? function with
  | none =>
      simp only [applyMoments, apply, hframe]
      exact .stop hroom.fits (Outcome.unrecorded_fail _)
  | some frame =>
      have hfits := hroom.pushCall frame
      have hcall : Bounded limit
          (callMoments ev watch config function arguments (state.pushCall frame))
          (call ev config function arguments (state.pushCall frame)) :=
        bounded_call hwatched function arguments hfits
      have hdone := hcall.finish ((effect_calls config).call hwatched.calls State.globalScope
        function arguments (state.pushCall frame))
      simp only [applyMoments, apply, hframe]
      refine ⟨?_, hdone.after, ?_⟩
      · intro moment hmoment
        rcases List.mem_cons.mp hmoment with rfl | hmoment
        · exact hfits.length_le
        · exact hdone.calls moment hmoment
      · intro failure stack hfailed hstack
        obtain ⟨moment, hmoment, heq⟩ := hdone.stack failure stack hfailed hstack
        exact ⟨moment, List.mem_cons_of_mem _ hmoment, heq⟩

theorem bounded_application (hwatched : Watched limit ev watch) (head tail : Value)
    (scope : Nat) (hroom : state.HasRoom limit) :
    Bounded limit (applicationMoments ev watch config head tail scope state)
      (application ev config head tail scope state) := by
  rw [applicationMoments, application_eq]
  refine (hwatched.bounded head scope hroom.fits).andThen ?_
  intro function middle hfunction
  have hmiddle := hwatched.hasRoom hroom hfunction
  rw [applyTo]
  split_ifs
  · exact .stop hmiddle.fits (Outcome.unrecorded_fail _)
  · refine (bounded_arguments hwatched scope tail tail [] hmiddle.fits).andThen ?_
    intro values last hvalues
    have hdepth := (effect_depth config).arguments hwatched.depth scope tail tail [] middle
    have hcalls := (effect_calls config).arguments hwatched.calls scope tail tail [] middle
    rw [hvalues] at hdepth hcalls
    exact bounded_apply hwatched function values
      (hmiddle.of_balanced hdepth (hcalls Outcome.noConfusion))

theorem bounded_conditional (hwatched : Watched limit ev watch) (tail : Value) (scope : Nat)
    (hroom : state.HasRoom limit) :
    Bounded limit (conditionalMoments ev watch tail scope state)
      (conditional ev tail scope state) := by
  cases hitems : checkedArguments Symbol.ifForm.name ⟨2, some 3⟩ tail with
  | error reason =>
      simp only [conditionalMoments, conditional, hitems]
      exact .stop hroom.fits (Outcome.unrecorded_fail reason)
  | ok items =>
      rcases items with _ | ⟨test, _ | ⟨yes, rest⟩⟩
      · simp only [conditionalMoments, conditional, hitems]
        exact .stop hroom.fits Outcome.unrecorded_crashed
      · simp only [conditionalMoments, conditional, hitems]
        exact .stop hroom.fits Outcome.unrecorded_crashed
      · simp only [conditionalMoments, hitems]
        rw [conditional_eq ev hitems]
        refine (hwatched.bounded test scope hroom.fits).andThen ?_
        intro value middle hvalue
        have hmiddle := hwatched.fits hroom.fits hvalue
        unfold branch
        split_ifs
        · exact hwatched.bounded yes scope hmiddle
        · cases rest with
          | nil => exact .stop hmiddle (Outcome.unrecorded_value _)
          | cons no rest => exact hwatched.bounded no scope hmiddle

theorem bounded_definition (hwatched : Watched limit ev watch) (tail : Value) (scope : Nat)
    (hroom : state.HasRoom limit) :
    Bounded limit (definitionMoments watch tail scope state)
      (definition ev tail scope state) := by
  cases hitems : checkedArguments Symbol.defineForm.name (.exactly 2) tail with
  | error reason =>
      simp only [definitionMoments, definition, hitems]
      exact .stop hroom.fits (Outcome.unrecorded_fail reason)
  | ok items =>
      rcases items with _ | ⟨target, _ | ⟨expr, rest⟩⟩
      · simp only [definitionMoments, definition, hitems]
        exact .stop hroom.fits Outcome.unrecorded_crashed
      · simp only [definitionMoments, definition, hitems]
        exact .stop hroom.fits Outcome.unrecorded_crashed
      · cases hname : definedName .defineForm target with
        | error reason =>
            simp only [definitionMoments, definition, hitems, hname]
            exact .stop hroom.fits (Outcome.unrecorded_fail reason)
        | ok name =>
            have hexpr := hwatched.bounded expr scope hroom.fits
            simp only [definitionMoments, hitems, hname]
            rw [definition_eq ev hitems hname]
            generalize ev expr scope state = result at hexpr
            obtain ⟨outcome, middle⟩ := result
            cases outcome with
            | value value =>
                refine ⟨hexpr.calls, hexpr.after, ?_⟩
                intro failure stack hfailed
                cases hfailed
            | _ => exact hexpr

/-- What bounds the parts of an expression bounds the whole. -/
theorem bounded_expression (hwatched : Watched limit ev watch) (expr : Value) (scope : Nat)
    (hroom : state.HasRoom limit) :
    Bounded limit (expressionMoments ev watch config expr scope state)
      (expression ev config expr scope state) := by
  cases expr with
  | symbol name =>
      refine .stop hroom.fits ?_
      rw [symbol]
      split
      · exact Outcome.unrecorded_crashed
      · split
        · exact Outcome.unrecorded_value _
        · exact Outcome.unrecorded_fail _
  | pair head tail =>
      rw [expressionMoments, expression, pair]
      split_ifs
      · exact bounded_conditional hwatched tail scope hroom
      · exact bounded_definition hwatched tail scope hroom
      · fun_cases functionDefinition tail scope state with
        | case1 reason => exact .stop hroom.fits (Outcome.unrecorded_fail reason)
        | case2 target parameters rest hitems reason =>
            exact .stop hroom.fits (Outcome.unrecorded_fail reason)
        | case3 target parameters rest hitems name =>
            exact .stop ⟨hroom.fits.calls, hroom.fits.depth⟩ (Outcome.unrecorded_value _)
        | case4 => exact .stop hroom.fits Outcome.unrecorded_crashed
      · fun_cases quotation tail state with
        | case1 reason => exact .stop hroom.fits (Outcome.unrecorded_fail reason)
        | case2 value => exact .stop hroom.fits (Outcome.unrecorded_value value)
        | case3 => exact .stop hroom.fits Outcome.unrecorded_crashed
      · exact bounded_application hwatched head tail scope hroom
  | _ => exact .stop hroom.fits (Outcome.unrecorded_value _)

end

/-- An evaluation is bounded from every state that fits the limit. -/
theorem watched_eval {config : Config} (hlimit : 0 < config.maxDepth) (fuel : Nat) :
    Watched config.maxDepth (eval config fuel) (moments config fuel) := by
  induction fuel with
  | zero =>
      refine ⟨?_, (effect_depth config).eval 0, (effect_calls config).eval 0⟩
      intro expr scope state hfits
      refine .stop hfits fun failure hfailed => ?_
      cases hfailed
  | succ fuel ih =>
      refine ⟨?_, (effect_depth config).eval (fuel + 1), (effect_calls config).eval (fuel + 1)⟩
      intro expr scope state hfits
      have hparts : Bounded config.maxDepth
          (if config.exceeds state.enter.depth then []
            else expressionMoments (eval config fuel) (moments config fuel) config expr scope
              state.enter)
          (eval config (fuel + 1) expr scope state) := by
        rw [eval]
        split_ifs with hexceeds
        · exact .stop ⟨hfits.calls, hfits.depth⟩ (Outcome.unrecorded_fail _)
        · rw [Config.exceeds_eq_true, State.enter_depth] at hexceeds
          have hcalls := hfits.calls
          have hroom : state.enter.HasRoom config.maxDepth :=
            ⟨Nat.lt_succ_of_le hcalls, by rw [State.enter_depth]; omega⟩
          have hresult : Bounded config.maxDepth
              (expressionMoments (eval config fuel) (moments config fuel) config expr scope
                state.enter)
              (expression (eval config fuel) config expr scope state.enter) :=
            bounded_expression ih expr scope hroom
          exact ⟨hresult.calls, hresult.after, hresult.stack⟩
      rw [moments]
      refine ⟨?_, hparts.after, ?_⟩
      · intro moment hmoment
        simp only [List.mem_append, List.mem_cons, List.not_mem_nil, or_false] at hmoment
        rcases hmoment with (rfl | hmoment) | rfl
        · exact hfits.length_le
        · exact hparts.calls moment hmoment
        · exact hparts.after
      · intro failure stack hfailed hstack
        obtain ⟨moment, hmoment, heq⟩ := hparts.stack failure stack hfailed hstack
        refine ⟨moment, ?_, heq⟩
        exact List.mem_append_left _ (List.mem_cons_of_mem _ hmoment)

end Eval

/-- Under a limit on the depth, every evaluation finishes, with no more fuel than an
interpreter gives it.  Where everything exists that the expression and the environments
speak of, it finishes with a value or a failure.  If it begins with nothing to do, then at
every moment no more functions are being applied than the limit says, and no failure records
more. -/
theorem evaluation_within_limit {config : Config} (hlimit : 0 < config.maxDepth)
    (expr : Value) (scope : Nat) (state : State) :
    (∃ result, Evaluates config expr scope state result) ∧
      ((state.depth : Int) ≤ config.maxDepth →
        Evaluates config expr scope state
          (eval config (config.fuel state.depth) expr scope state)) ∧
      (state.Sound → scope < state.envs.size → expr.Sound state.envs.size →
        ∀ result, Evaluates config expr scope state result →
          (∃ value, result.1 = .value value) ∨ ∃ failure, result.1 = .failed failure) ∧
      (state.depth = 0 → state.calls = [] → ∀ fuel,
        (∀ moment ∈ moments config fuel expr scope state,
          (moment.calls.length : Int) ≤ config.maxDepth) ∧
        ∀ failure stack, (eval config fuel expr scope state).1 = .failed failure →
          failure.stack? = some stack → (stack.length : Int) ≤ config.maxDepth) := by
  refine ⟨Evaluates.exists_of_limit hlimit expr scope state, ?_, ?_, ?_⟩
  · intro hdepth
    have hfuel : config.fuel state.depth = config.maxDepth.toNat + 1 - state.depth := by
      rw [Config.fuel, if_pos hlimit]
    refine .of_finished _ (Eval.eval_ne_exhausted hlimit expr scope state ?_ ?_)
    · omega
    · omega
  · rintro hstate hscope hexpr result ⟨hfinished, fuel, rfl⟩
    have hsafe := (Eval.safe_eval config fuel).safe hstate hscope hexpr
    have houtcome := hsafe.outcome.ne_crashed
    cases hresult : (eval config fuel expr scope state).1 with
    | value value => exact .inl ⟨value, rfl⟩
    | failed failure => exact .inr ⟨failure, rfl⟩
    | crashed => exact absurd hresult houtcome
    | exhausted => exact absurd hresult hfinished
  · intro hdepth hcalls fuel
    have hfits : state.Fits config.maxDepth := by
      refine ⟨?_, ?_⟩
      · rw [hcalls]
        exact Nat.zero_le _
      · rw [hdepth]
        exact Int.le_of_lt hlimit
    have hbounded := (Eval.watched_eval hlimit fuel).bounded expr scope hfits
    refine ⟨hbounded.calls, ?_⟩
    intro failure stack hfailed hstack
    obtain ⟨moment, hmoment, rfl⟩ := hbounded.stack failure stack hfailed hstack
    exact hbounded.calls moment hmoment

/-- Two functions that call each other without end. -/
def pingPong : State :=
  let caller (name callee : String) : Value :=
    .closure ⟨utf8 name⟩ .empty (.ofList [.ofList [.symbol ⟨utf8 callee⟩]])
      (some State.globalScope)
  { Interpreter.blank.state with
    envs := #[(Env.empty.define ⟨utf8 "PONG"⟩ (caller "PONG" "PING")).define
      ⟨utf8 "PING"⟩ (caller "PING" "PONG")] }

theorem sound_pingPong : pingPong.Sound := by
  have hcaller : ∀ name callee : Symbol,
      (Value.closure name .empty (.ofList [.ofList [.symbol callee]])
        (some State.globalScope)).Sound 1 :=
    fun _ _ => ⟨⟨⟨trivial, trivial⟩, trivial⟩, 0, Nat.zero_lt_one, rfl⟩
  have hempty : ∀ binding ∈ Env.empty.bindings, binding.value.Sound 1 :=
    fun _ hmem => absurd hmem List.not_mem_nil
  have hpong := Env.forall_mem_define hempty ⟨utf8 "PONG"⟩ (hcaller ⟨utf8 "PONG"⟩ ⟨utf8 "PING"⟩)
  exact State.Holds.single (P := Value.Sound) rfl
    (Env.forall_mem_define hpong ⟨utf8 "PING"⟩ (hcaller ⟨utf8 "PING"⟩ ⟨utf8 "PONG"⟩))

/-- A limit of twelve ends the exchange after eleven calls, and the failure records them. -/
theorem evaluation_within_limit_pingPong :
    ∃ result failure stack,
      Evaluates ⟨12, false⟩ (.ofList [.symbol ⟨utf8 "PING"⟩]) State.globalScope pingPong
          result ∧
        result.1 = .failed failure ∧ failure.stack? = some stack ∧ stack.length = 11 ∧
        (stack.length : Int) ≤ 12 ∧
        ∀ moment ∈ moments ⟨12, false⟩ 13 (.ofList [.symbol ⟨utf8 "PING"⟩])
          State.globalScope pingPong, (moment.calls.length : Int) ≤ 12 := by
  obtain ⟨_, hfinishes, hends, hbound⟩ := @evaluation_within_limit ⟨12, false⟩ (by decide)
    (.ofList [.symbol ⟨utf8 "PING"⟩]) State.globalScope pingPong
  have hevaluates := hfinishes (by decide)
  obtain ⟨hmoments, hfailures⟩ := hbound rfl rfl 13
  have hstack : (match (eval ⟨12, false⟩ 13 (.ofList [.symbol ⟨utf8 "PING"⟩])
        State.globalScope pingPong).1 with
      | .value _ => none
      | .failed failure => failure.stack?.map List.length
      | _ => none) = some 11 := by decide +kernel
  rcases hends sound_pingPong (by decide) ⟨trivial, trivial⟩ _ hevaluates with
    ⟨value, hvalue⟩ | ⟨failure, hfailed⟩
  · rw [show (eval ⟨12, false⟩ 13 _ _ _).1 = _ from hvalue] at hstack
    cases hstack
  · rw [show (eval ⟨12, false⟩ 13 _ _ _).1 = _ from hfailed] at hstack
    obtain ⟨stack, hsome, hlength⟩ := Option.map_eq_some_iff.mp hstack
    exact ⟨_, failure, stack, hevaluates, hfailed, hsome, hlength,
      hfailures failure stack hfailed hsome, hmoments⟩

end MiniLisp
