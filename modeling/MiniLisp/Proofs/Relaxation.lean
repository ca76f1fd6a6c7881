import MiniLisp.Proofs.Evaluation

/-!
Two evaluations of one expression, of which the second is configured more permissively.
They go the same way until the first is cut off: a failure ends every evaluation that
it arises in, and what was printed before it is the beginning of what the second prints.
-/

namespace MiniLisp

theorem Failure.signal?_mapSignal (f : Signal → Signal) (failure : Failure) :
    (failure.mapSignal f).signal? = failure.signal?.map f := by
  induction failure with
  | context label inner ih => exact ih
  | _ => rfl

namespace Outcome

/-- The condition of the failure that an evaluation ends with, if it does. -/
def condition? : Outcome → Option Condition
  | .failed failure => failure.signal?.map fun signal => signal.reason.condition
  | _ => none

@[simp]
theorem condition?_fail (reason : Reason) :
    (fail reason).condition? = some reason.condition := rfl

@[simp]
theorem condition?_attachStack (stack : CallStack) (outcome : Outcome) :
    (outcome.attachStack stack).condition? = outcome.condition? := by
  cases outcome with
  | failed failure =>
      simp only [attachStack, condition?, Failure.attachStack, Failure.signal?_mapSignal,
        Option.map_map]
      rfl
  | _ => rfl

end Outcome

namespace Eval

/-! ### Sequencing -/

/-- Go on with the value of a result.  A result without a value ends the evaluation. -/
def andThen (result : Outcome × State) (next : Value → State → Outcome × State) :
    Outcome × State :=
  match result with
  | (.value value, state) => next value state
  | other => other

def applyTo (ev : Evaluator) (config : Config) (tail : Value) (scope : Nat)
    (function : Value) (state : State) : Outcome × State :=
  if (Frame.of? function).isNone then (.fail (.notFunction function), state)
  else
    andThen (arguments ev scope tail tail [] state) fun values state =>
      apply ev config function values state

def branch (ev : Evaluator) (yes : Value) (rest : List Value) (scope : Nat) (value : Value)
    (state : State) : Outcome × State :=
  if value.isTrue then ev yes scope state
  else
    match rest with
    | [] => (.value .empty, state)
    | no :: _ => ev no scope state

theorem arguments_pair (ev : Evaluator) (scope : Nat) (all head tail : Value)
    (found : List Value) (state : State) :
    arguments ev scope all (.pair head tail) found state =
      andThen (ev head scope state) fun value state =>
        arguments ev scope all tail (value :: found) state := by
  rw [arguments]
  rcases ev head scope state with ⟨outcome, middle⟩
  cases outcome <;> rfl

theorem body_pair (ev : Evaluator) (scope : Nat) (head tail last : Value) (state : State) :
    body ev scope (.pair head tail) last state =
      andThen (ev head scope state) fun value state => body ev scope tail value state := by
  rw [body]
  rcases ev head scope state with ⟨outcome, middle⟩
  cases outcome <;> rfl

theorem application_eq (ev : Evaluator) (config : Config) (head tail : Value) (scope : Nat)
    (state : State) :
    application ev config head tail scope state =
      andThen (ev head scope state) (applyTo ev config tail scope) := by
  rw [application]
  rcases ev head scope state with ⟨outcome, middle⟩
  cases outcome with
  | value function =>
      by_cases hframe : (Frame.of? function).isNone = true
      · simp [andThen, applyTo, hframe]
      · cases harguments : arguments ev scope tail tail [] middle with
        | mk outcome last => cases outcome <;> simp [andThen, applyTo, hframe, harguments]
  | _ => rfl

theorem conditional_eq (ev : Evaluator) {tail test yes : Value} {rest : List Value}
    (hitems : checkedArguments Symbol.ifForm.name ⟨2, some 3⟩ tail =
      .ok (test :: yes :: rest)) (scope : Nat) (state : State) :
    conditional ev tail scope state =
      andThen (ev test scope state) (branch ev yes rest scope) := by
  simp only [conditional, hitems]
  rcases ev test scope state with ⟨outcome, middle⟩
  cases outcome <;> rfl

theorem definition_eq (ev : Evaluator) {tail target expr : Value} {rest : List Value}
    {name : Symbol} (hitems : checkedArguments Symbol.defineForm.name (.exactly 2) tail =
      .ok (target :: expr :: rest)) (hname : definedName .defineForm target = .ok name)
    (scope : Nat) (state : State) :
    definition ev tail scope state =
      andThen (ev expr scope state) fun value state =>
        (.value value, state.define scope name value) := by
  simp only [definition, hitems, hname]
  rcases ev expr scope state with ⟨outcome, middle⟩
  cases outcome <;> rfl

/-! ### Being cut off -/

/-- How a strict evaluation compares with a permissive one: it gives the same result, runs
out of fuel, or is cut off by a failure with one of the conditions `cut`.  A strict
evaluation that is cut off has printed no more than the permissive one. -/
inductive Follows (cut : Condition → Prop) : Outcome × State → Outcome × State → Prop
  | same (result : Outcome × State) : Follows cut result result
  | exhausted (state : State) (result : Outcome × State) :
      Follows cut (.exhausted, state) result
  | cut {outcome : Outcome} {state : State} {result : Outcome × State}
      {condition : Condition} (hcondition : outcome.condition? = some condition)
      (hcut : cut condition) (hout : state.out.Extends result.2.out) :
      Follows cut (outcome, state) result

/-- What evaluators for parts must satisfy for evaluations of the whole to compare: the
strict one drops the functions that it applied, and the permissive one only adds output. -/
structure Compared (cut : Condition → Prop) (ev ev' : Evaluator) : Prop where
  follows (expr : Value) (scope : Nat) (state : State) :
    Follows cut (ev expr scope state) (ev' expr scope state)
  calls (expr : Value) (scope : Nat) (state : State)
    (houtcome : (ev expr scope state).1 ≠ .crashed) :
    (ev expr scope state).2.calls = state.calls
  out (expr : Value) (scope : Nat) (state : State) :
    state.out.Extends (ev' expr scope state).2.out

/-- The second configuration allows what the first does, and forbids less only where the
first fails with one of the conditions `cut`. -/
structure Relaxes (cut : Condition → Prop) (strict loose : Config) : Prop where
  within (depth : Nat) (hdepth : strict.exceeds depth = false) : loose.exceeds depth = false
  depth : cut .recursionLimit ∨ loose.maxDepth = strict.maxDepth
  surplus : loose.surplus = strict.surplus ∨ loose.surplus = true ∧ cut .arity

theorem extends_andThen {state : State} {first : Outcome × State}
    {next : Value → State → Outcome × State} (hfirst : state.out.Extends first.2.out)
    (hnext : ∀ value (middle : State), middle.out.Extends (next value middle).2.out) :
    state.out.Extends (andThen first next).2.out := by
  obtain ⟨outcome, middle⟩ := first
  cases outcome with
  | value value => exact hfirst.trans (hnext value middle)
  | _ => exact hfirst

/-- A strict evaluation that is cut off ends there; the permissive one goes on. -/
theorem follows_andThen {cut : Condition → Prop} {first first' : Outcome × State}
    {next next' : Value → State → Outcome × State} (hfirst : Follows cut first first')
    (hnext : ∀ value state, Follows cut (next value state) (next' value state))
    (hout : ∀ value (state : State), state.out.Extends (next' value state).2.out) :
    Follows cut (andThen first next) (andThen first' next') := by
  cases hfirst with
  | same result =>
      obtain ⟨outcome, state⟩ := first
      cases outcome with
      | value value => exact hnext value state
      | _ => exact .same _
  | exhausted state => exact .exhausted state _
  -- No form catches a failure, so the strict evaluation ends here and has printed
  -- nothing that the permissive one does not print before it goes on.
  | @cut outcome state result condition hcondition hcut hbefore =>
      have hstop : andThen (outcome, state) next = (outcome, state) := by
        cases outcome with
        | value value => cases hcondition
        | _ => rfl
      rw [hstop]
      exact .cut hcondition hcut (extends_andThen hbefore hout)

theorem follows_finish {cut : Condition → Prop} {result result' : Outcome × State}
    {frame : Frame} {below : CallStack} (hfollows : Follows cut result result')
    (hcalls : result.1 ≠ .crashed → result.2.calls = frame :: below) :
    Follows cut (finish result) (finish result') := by
  cases hfollows with
  | same result => exact .same _
  | exhausted state =>
      rw [finish_of_ne_crashed (by simp) (hcalls (by simp))]
      exact .exhausted _ _
  | @cut outcome state result condition hcondition hcut hout =>
      -- A failure still has its own function to drop; only a crash would not.
      have houtcome : outcome ≠ .crashed := by
        rintro rfl
        cases hcondition
      rw [finish_of_ne_crashed houtcome (hcalls houtcome)]
      refine .cut (by rw [Outcome.condition?_attachStack, hcondition]) hcut ?_
      rw [(finish_state result').2.1]
      exact hout

section

variable {cut : Condition → Prop} {strict loose : Config} {ev ev' : Evaluator}

theorem follows_arguments (loose : Config) (hcompared : Compared cut ev ev') (scope : Nat)
    (all rest : Value) (found : List Value) (state : State) :
    Follows cut (arguments ev scope all rest found state)
      (arguments ev' scope all rest found state) := by
  induction rest generalizing found state with
  | pair head tail _ ih =>
      rw [arguments_pair, arguments_pair]
      refine follows_andThen (hcompared.follows head scope state) ?_ ?_
      · intro value middle
        exact ih (value :: found) middle
      · intro value middle
        exact (effect_out loose).arguments hcompared.out scope all tail (value :: found) middle
  | _ => exact .same _

theorem follows_body (loose : Config) (hcompared : Compared cut ev ev') (scope : Nat)
    (rest last : Value) (state : State) :
    Follows cut (body ev scope rest last state) (body ev' scope rest last state) := by
  induction rest generalizing last state with
  | pair head tail _ ih =>
      rw [body_pair, body_pair]
      refine follows_andThen (hcompared.follows head scope state) ?_ ?_
      · intro value middle
        exact ih value middle
      · intro value middle
        exact (effect_out loose).body hcompared.out scope tail value middle
  | _ => exact .same _

theorem bind_ending (config : Config) (callee : Symbol) (all arguments : Value) (env : Env)
    {ending : Value} (hending : ∀ head tail, ending ≠ .pair head tail) :
    bind config callee all ending arguments env =
      if !ending.isEmpty then .error (.parametersNotList callee all)
      else if !arguments.isEmpty && !config.surplus then .error (.surplusArguments callee)
      else .ok env := by
  cases ending with
  | pair head tail => exact absurd rfl (hending head tail)
  | _ => rfl

theorem bind_ending_relaxes (hrelaxes : Relaxes cut strict loose) (callee : Symbol)
    (all arguments : Value) (env : Env) {ending : Value}
    (hending : ∀ head tail, ending ≠ .pair head tail) :
    bind loose callee all ending arguments env = bind strict callee all ending arguments env ∨
      ∃ reason, bind strict callee all ending arguments env = .error reason ∧
        cut reason.condition := by
  rw [bind_ending loose callee all arguments env hending,
    bind_ending strict callee all arguments env hending]
  rcases hrelaxes.surplus with hsame | ⟨hloose, hcut⟩
  · exact .inl (by rw [hsame])
  · split_ifs with hlist hsurplus hsurplus' hsurplus'
    · exact .inl rfl
    · exact .inl rfl
    · simp [hloose] at hsurplus
    · exact .inr ⟨_, rfl, hcut⟩
    · exact .inl rfl

/-- Parameters are bound alike, unless surplus arguments are a failure only for the strict
configuration. -/
theorem bind_relaxes (hrelaxes : Relaxes cut strict loose) (callee : Symbol)
    (all parameters arguments : Value) (env : Env) :
    bind loose callee all parameters arguments env =
        bind strict callee all parameters arguments env ∨
      ∃ reason, bind strict callee all parameters arguments env = .error reason ∧
        cut reason.condition := by
  induction parameters generalizing arguments env with
  | pair head tail _ ih =>
      cases head with
      | symbol parameter =>
          by_cases hconstant : parameter.isConstant = true
          · exact .inl (by simp [bind, hconstant])
          · cases arguments with
            | pair argument arguments =>
                simpa [bind, hconstant] using ih arguments (env.define parameter argument)
            | _ => exact .inl (by simp [bind, hconstant])
      | _ => exact .inl rfl
  | _ => exact bind_ending_relaxes hrelaxes callee all arguments env (by simp)

theorem follows_call (hrelaxes : Relaxes cut strict loose) (hcompared : Compared cut ev ev')
    (function arguments : Value) (state : State) :
    Follows cut (call ev strict function arguments state)
      (call ev' loose function arguments state) := by
  have hout := (effect_out loose).call hcompared.out 0 function arguments state
  cases function with
  | closure name parameters expressions scope =>
      simp only [call, callClosure] at hout ⊢
      cases henv : scope.bind (state.envs[·]?) with
      | none => exact .same _
      | some env =>
          simp only [henv] at hout ⊢
          rcases bind_relaxes hrelaxes name parameters parameters arguments env with
            hsame | ⟨reason, hreason, hcut⟩
          · rw [hsame]
            split
            · exact .same _
            · exact follows_body loose hcompared _ _ _ _
          · simp only [hreason]
            exact .cut (Outcome.condition?_fail reason) hcut hout
  | _ => exact .same _

theorem follows_apply (hrelaxes : Relaxes cut strict loose)
    (hcompared : Compared cut ev ev') (function arguments : Value) (state : State) :
    Follows cut (apply ev strict function arguments state)
      (apply ev' loose function arguments state) := by
  rw [apply, apply]
  split
  · exact .same _
  · next frame hframe =>
      exact follows_finish (follows_call hrelaxes hcompared function arguments _)
        ((effect_calls strict).call hcompared.calls 0 function arguments
          (state.pushCall frame))

theorem follows_application (hrelaxes : Relaxes cut strict loose)
    (hcompared : Compared cut ev ev') (head tail : Value) (scope : Nat) (state : State) :
    Follows cut (application ev strict head tail scope state)
      (application ev' loose head tail scope state) := by
  rw [application_eq, application_eq]
  refine follows_andThen (hcompared.follows head scope state) ?_ ?_
  · intro function middle
    rw [applyTo, applyTo]
    split
    · exact .same _
    · refine follows_andThen (follows_arguments loose hcompared scope tail tail [] middle) ?_ ?_
      · intro values last
        exact follows_apply hrelaxes hcompared function values last
      · intro values last
        exact (effect_out loose).apply hcompared.out scope function values last
  · intro function middle
    rw [applyTo]
    split
    · exact .refl _
    · refine extends_andThen
        ((effect_out loose).arguments hcompared.out scope tail tail [] middle) ?_
      intro values last
      exact (effect_out loose).apply hcompared.out scope function values last

theorem follows_conditional (hcompared : Compared cut ev ev') (tail : Value) (scope : Nat)
    (state : State) :
    Follows cut (conditional ev tail scope state) (conditional ev' tail scope state) := by
  cases hitems : checkedArguments Symbol.ifForm.name ⟨2, some 3⟩ tail with
  | error reason =>
      simp only [conditional, hitems]
      exact .same _
  | ok items =>
      rcases items with _ | ⟨test, _ | ⟨yes, rest⟩⟩
      · simp only [conditional, hitems]
        exact .same _
      · simp only [conditional, hitems]
        exact .same _
      · rw [conditional_eq ev hitems, conditional_eq ev' hitems]
        refine follows_andThen (hcompared.follows test scope state) ?_ ?_
        · intro value middle
          unfold branch
          split
          · exact hcompared.follows yes scope middle
          · split
            · exact .same _
            · exact hcompared.follows _ scope middle
        · intro value middle
          unfold branch
          split
          · exact hcompared.out yes scope middle
          · split
            · exact .refl _
            · exact hcompared.out _ scope middle

theorem follows_definition (hcompared : Compared cut ev ev') (tail : Value) (scope : Nat)
    (state : State) :
    Follows cut (definition ev tail scope state) (definition ev' tail scope state) := by
  cases hitems : checkedArguments Symbol.defineForm.name (.exactly 2) tail with
  | error reason =>
      simp only [definition, hitems]
      exact .same _
  | ok items =>
      rcases items with _ | ⟨target, _ | ⟨expr, rest⟩⟩
      · simp only [definition, hitems]
        exact .same _
      · simp only [definition, hitems]
        exact .same _
      · cases hname : definedName .defineForm target with
        | error reason =>
            simp only [definition, hitems, hname]
            exact .same _
        | ok name =>
            rw [definition_eq ev hitems hname, definition_eq ev' hitems hname]
            refine follows_andThen (hcompared.follows expr scope state) ?_ ?_
            · exact fun value middle => .same _
            · exact fun value middle => .refl _

theorem follows_expression (hrelaxes : Relaxes cut strict loose)
    (hcompared : Compared cut ev ev') (expr : Value) (scope : Nat) (state : State) :
    Follows cut (expression ev strict expr scope state)
      (expression ev' loose expr scope state) := by
  cases expr with
  | pair head tail =>
      simp only [expression, pair]
      split_ifs
      · exact follows_conditional hcompared tail scope state
      · exact follows_definition hcompared tail scope state
      · exact .same _
      · exact .same _
      · exact follows_application hrelaxes hcompared head tail scope state
  | _ => exact .same _

end

theorem Follows.leave {cut : Condition → Prop} {result result' : Outcome × State}
    (hfollows : Follows cut result result') :
    Follows cut (result.1, result.2.leave) (result'.1, result'.2.leave) := by
  cases hfollows with
  | same result => exact .same _
  | exhausted state => exact .exhausted _ _
  | cut hcondition hcut hout => exact .cut hcondition hcut hout

/-- An evaluation follows the evaluation of the same expression under a more permissive
configuration and with at least as much fuel. -/
theorem follows_eval {cut : Condition → Prop} {strict loose : Config}
    (hrelaxes : Relaxes cut strict loose) {fuel fuel' : Nat} (hfuel : fuel ≤ fuel')
    (expr : Value) (scope : Nat) (state : State) :
    Follows cut (eval strict fuel expr scope state) (eval loose fuel' expr scope state) := by
  induction fuel generalizing fuel' expr scope state with
  | zero => exact .exhausted state _
  | succ fuel ih =>
      obtain ⟨fuel', rfl⟩ : ∃ less, fuel' = less + 1 := ⟨fuel' - 1, by omega⟩
      have hout := (effect_out loose).eval (fuel' + 1) expr scope state
      have hcompared : Compared cut (eval strict fuel) (eval loose fuel') :=
        ⟨fun expr scope state => ih (by omega) expr scope state,
          (effect_calls strict).eval fuel, (effect_out loose).eval fuel'⟩
      -- Both count the same depth: they differ only in where they stop.
      cases hexceeds : strict.exceeds state.enter.depth with
      | false =>
          have hwithin := hrelaxes.within _ hexceeds
          simp only [eval, hexceeds, hwithin, Bool.false_eq_true, ↓reduceIte]
          exact (follows_expression hrelaxes hcompared expr scope state.enter).leave
      | true =>
          rcases hrelaxes.depth with hcut | hsame
          · have hstrict : eval strict (fuel + 1) expr scope state =
                (.fail (.depthExceeded strict.maxDepth),
                  (state.enter.note (depthMessage strict state.enter)).leave) := by
              simp only [eval, hexceeds, ↓reduceIte]
            rw [hstrict]
            exact .cut (Outcome.condition?_fail _) hcut hout
          · have hloose : loose.exceeds state.enter.depth = true := by
              rw [Config.exceeds, hsame]
              exact hexceeds
            simp only [eval, hexceeds, hloose, ↓reduceIte, depthMessage, hsame]
            exact .same _

end Eval

/-! ### Finished evaluations -/

open Eval (Follows Relaxes)

/-- The evaluation of an expression finishes with a result, given enough fuel. -/
def Evaluates (config : Config) (expr : Value) (scope : Nat) (state : State)
    (result : Outcome × State) : Prop :=
  result.1 ≠ .exhausted ∧ ∃ fuel, eval config fuel expr scope state = result

theorem Eval.Relaxes.refl (config : Config) : Relaxes (fun _ => False) config config where
  within _ hdepth := hdepth
  depth := .inr rfl
  surplus := .inl rfl

/-- More fuel makes no difference to an evaluation that finishes. -/
theorem eval_mono {config : Config} {fuel fuel' : Nat} {expr : Value} {scope : Nat}
    {state : State} {result : Outcome × State} (hfuel : fuel ≤ fuel')
    (hresult : eval config fuel expr scope state = result)
    (hfinished : result.1 ≠ .exhausted) :
    eval config fuel' expr scope state = result := by
  have hfollows := Eval.follows_eval (.refl config) hfuel expr scope state
  rw [hresult] at hfollows
  generalize eval config fuel' expr scope state = other at hfollows
  cases hfollows with
  | same => rfl
  | exhausted state => exact absurd rfl hfinished
  | cut _ hcut _ => exact hcut.elim

namespace Evaluates

variable {cut : Condition → Prop} {config strict loose : Config} {expr : Value} {scope : Nat}
  {state : State} {result result' : Outcome × State}

theorem of_finished (fuel : Nat)
    (hfinished : (eval config fuel expr scope state).1 ≠ .exhausted) :
    Evaluates config expr scope state (eval config fuel expr scope state) :=
  ⟨hfinished, fuel, rfl⟩

/-- Evaluation has one result. -/
theorem unique (hfirst : Evaluates config expr scope state result)
    (hsecond : Evaluates config expr scope state result') : result' = result := by
  obtain ⟨hfinished, fuel, hresult⟩ := hfirst
  obtain ⟨hfinished', fuel', hresult'⟩ := hsecond
  rw [← eval_mono (Nat.le_max_left fuel fuel') hresult hfinished,
    ← eval_mono (Nat.le_max_right fuel fuel') hresult' hfinished']

/-- A strict evaluation that is not cut off has the same result as the permissive one. -/
theorem relaxed (hrelaxes : Relaxes cut strict loose)
    (hstrict : Evaluates strict expr scope state result)
    (hcut : ∀ condition, result.1.condition? = some condition → ¬cut condition) :
    Evaluates loose expr scope state result := by
  obtain ⟨hfinished, fuel, hresult⟩ := hstrict
  refine ⟨hfinished, fuel, ?_⟩
  have hfollows := Eval.follows_eval hrelaxes (Nat.le_refl fuel) expr scope state
  rw [hresult] at hfollows
  generalize eval loose fuel expr scope state = other at hfollows
  cases hfollows with
  | same => rfl
  | exhausted state => exact absurd rfl hfinished
  | cut hcondition hmember _ => exact absurd hmember (hcut _ hcondition)

/-- A strict evaluation prints a beginning of what the permissive one prints. -/
theorem text_prefix (hrelaxes : Relaxes cut strict loose)
    (hstrict : Evaluates strict expr scope state result)
    (hloose : Evaluates loose expr scope state result') :
    result.2.out.text <+: result'.2.out.text := by
  obtain ⟨hfinished, fuel, hresult⟩ := hstrict
  obtain ⟨hfinished', fuel', hresult'⟩ := hloose
  have hfollows :=
    Eval.follows_eval hrelaxes (Nat.le_max_left fuel fuel') expr scope state
  rw [hresult, eval_mono (Nat.le_max_right fuel fuel') hresult' hfinished'] at hfollows
  cases hfollows with
  | same => exact List.prefix_refl _
  | exhausted state => exact absurd rfl hfinished
  | cut _ _ hout => exact hout.text_prefix

end Evaluates

end MiniLisp
