import MiniLisp.Proofs.Inheritance
import MiniLisp.Proofs.ReadValues

/-!
The record of an evaluation.  An evaluation hands values on: it gives them as results,
applies functions to them and binds symbols to them.  Its record holds all that in order.
Replaying a record on the environments from before the evaluation gives those behind it, and
what values inherit from the values they are made of holds of all values in a record.
-/

namespace MiniLisp

/-! ### Events -/

/-- Something that an evaluation does with values. -/
inductive Event where
  /-- An evaluation gives a value. -/
  | yielded (value : Value)
  /-- A function is applied to evaluated arguments. -/
  | applied (function arguments : Value)
  /-- The environment with a number is copied, and the copy gets the next number. -/
  | copied (scope : Nat)
  /-- A symbol is bound in the environment with a number. -/
  | defined (scope : Nat) (symbol : Symbol) (value : Value)
deriving DecidableEq, Repr

/-- The environments behind an event. -/
def Event.replay (envs : Array Env) : Event → Array Env
  | .copied scope =>
      match envs[scope]? with
      | some env => envs.push env
      | none => envs
  | .defined scope symbol value => envs.modify scope (·.define symbol value)
  | _ => envs

/-- The environments behind all events of a record. -/
def replay (envs : Array Env) (record : List Event) : Array Env :=
  record.foldl Event.replay envs

theorem replay_append (envs : Array Env) (first rest : List Event) :
    replay envs (first ++ rest) = replay (replay envs first) rest :=
  List.foldl_append

namespace Eval

/-- The record of evaluating an expression in the environment with a number. -/
abbrev Recorder := Value → (scope : Nat) → State → List Event

/-- The record of an evaluation with a result, and that of what follows its value. -/
def recordThen (first : List Event) (result : Outcome × State)
    (next : Value → State → List Event) : List Event :=
  match result with
  | (.value value, state) => first ++ next value state
  | _ => first

/-- The record of evaluating expressions in order, up to the first without a value. -/
def sequenceRecord (ev : Evaluator) (record : Recorder) (scope : Nat) :
    (rest : Value) → State → List Event
  | .pair head tail, state =>
      recordThen (record head scope state) (ev head scope state) fun _ state =>
        sequenceRecord ev record scope tail state
  | _, _ => []

def bindRecord (scope : Nat) : (parameters arguments : Value) → List Event
  | .pair (.symbol parameter) parameters, .pair argument arguments =>
      .defined scope parameter argument :: bindRecord scope parameters arguments
  | _, _ => []

/-- The record of calling a closure that was defined in the environment `captured`. -/
def closureRecord (ev : Evaluator) (record : Recorder) (config : Config) (name : Symbol)
    (parameters expressions : Value) (captured : Nat) (arguments : Value) (state : State) :
    List Event :=
  match state.envs[captured]? with
  | none => []
  | some env =>
      match bind config name parameters parameters arguments env with
      | .error _ => []
      | .ok env =>
          let (scope, state) := state.addEnv env
          .copied captured :: bindRecord scope parameters arguments ++
            sequenceRecord ev record scope expressions state

def callRecord (ev : Evaluator) (record : Recorder) (config : Config)
    (function arguments : Value) (state : State) : List Event :=
  match function with
  | .closure name parameters expressions (some captured) =>
      closureRecord ev record config name parameters expressions captured arguments state
  | _ => []

def applyRecord (ev : Evaluator) (record : Recorder) (config : Config)
    (function arguments : Value) (state : State) : List Event :=
  match Frame.of? function with
  | none => []
  | some frame =>
      .applied function arguments ::
        callRecord ev record config function arguments (state.pushCall frame)

def applyToRecord (ev : Evaluator) (record : Recorder) (config : Config) (tail : Value)
    (scope : Nat) (function : Value) (state : State) : List Event :=
  if (Frame.of? function).isNone then []
  else
    recordThen (sequenceRecord ev record scope tail state)
      (arguments ev scope tail tail [] state) fun values state =>
        applyRecord ev record config function values state

def branchRecord (record : Recorder) (yes : Value) (rest : List Value) (scope : Nat)
    (value : Value) (state : State) : List Event :=
  if value.isTrue then record yes scope state
  else
    match rest with
    | [] => []
    | no :: _ => record no scope state

def conditionalRecord (ev : Evaluator) (record : Recorder) (tail : Value) (scope : Nat)
    (state : State) : List Event :=
  match checkedArguments Symbol.ifForm.name ⟨2, some 3⟩ tail with
  | .ok (test :: yes :: rest) =>
      recordThen (record test scope state) (ev test scope state)
        (branchRecord record yes rest scope)
  | _ => []

def definitionRecord (ev : Evaluator) (record : Recorder) (tail : Value) (scope : Nat)
    (state : State) : List Event :=
  match checkedArguments Symbol.defineForm.name (.exactly 2) tail with
  | .ok (target :: expression :: _) =>
      match definedName .defineForm target with
      | .ok name =>
          recordThen (record expression scope state) (ev expression scope state)
            fun value _ => [.defined scope name value]
      | .error _ => []
  | _ => []

def functionDefinitionRecord (tail : Value) (scope : Nat) : List Event :=
  match checkedArguments Symbol.defunForm.name (.atLeast 3) tail with
  | .ok (target :: parameters :: expressions) =>
      match definedName .defunForm target with
      | .ok name =>
          [.defined scope name (.closure name parameters (.ofList expressions) (some scope))]
      | .error _ => []
  | _ => []

def expressionRecord (ev : Evaluator) (record : Recorder) (config : Config) (expr : Value)
    (scope : Nat) (state : State) : List Event :=
  match expr with
  | .pair head tail =>
      if head = .symbol .ifForm then conditionalRecord ev record tail scope state
      else if head = .symbol .defineForm then definitionRecord ev record tail scope state
      else if head = .symbol .defunForm then functionDefinitionRecord tail scope
      else if head = .symbol .quoteForm then []
      else
        recordThen (record head scope state) (ev head scope state)
          (applyToRecord ev record config tail scope)
  | _ => []

end Eval

/-- The record of an evaluation: that of the parts of the expression, unless it nests too
deeply, and the value in the end. -/
def evalRecord (config : Config) : (fuel : Nat) → Eval.Recorder
  | 0, _, _, _ => []
  | fuel + 1, expr, scope, state =>
      let entered := state.enter
      let parts :=
        if config.exceeds entered.depth then []
        else
          Eval.expressionRecord (eval config fuel) (evalRecord config fuel) config expr scope
            entered
      match (eval config (fuel + 1) expr scope state).1 with
      | .value value => parts ++ [.yielded value]
      | _ => parts

/-! ### Inherited properties of records -/

/-- An event with values that have a property, in environments that there are, and that
binds no constant. -/
def Event.Holds (P : (scopes : Nat) → Value → Prop) (scopes : Nat) : Event → Prop
  | .yielded value => P scopes value
  | .applied function arguments => P scopes function ∧ P scopes arguments
  | .copied scope => scope < scopes
  | .defined scope symbol value =>
      scope < scopes ∧ symbol.isConstant = false ∧ P scopes value

section

variable {P : (scopes : Nat) → Value → Prop}

namespace Inherited

/-- Source text has every inherited property. -/
theorem plain (hP : Inherited P) (scopes : Nat) {value : Value} (hplain : value.Plain) :
    P scopes value := by
  induction value with
  | symbol symbol => exact hP.symbol scopes symbol
  | int n => exact hP.int scopes n
  | text content => exact hP.text scopes content
  | pair head tail ihead itail => exact hP.pair.mpr ⟨ihead hplain.1, itail hplain.2⟩
  | _ => exact hplain.elim

theorem event (hP : Inherited P) {scopes scopes' : Nat} {event : Event}
    (hevent : event.Holds P scopes) (hle : scopes ≤ scopes') : event.Holds P scopes' := by
  cases event with
  | yielded value => exact hP.mono hevent hle
  | applied function arguments => exact ⟨hP.mono hevent.1 hle, hP.mono hevent.2 hle⟩
  | copied scope => exact Nat.lt_of_lt_of_le hevent hle
  | defined scope symbol value =>
      exact ⟨Nat.lt_of_lt_of_le hevent.1 hle, hevent.2.1, hP.mono hevent.2.2 hle⟩

end Inherited

/-! ### Records of evaluations -/

namespace Eval

/-- A record and a result behind a state: what happened, the outcome and the environments
have a property, and the environments are those that the record leads to. -/
structure Kept (P : (scopes : Nat) → Value → Prop) (before : State) (record : List Event)
    (result : Outcome × State) : Prop where
  events (event : Event) (hevent : event ∈ record) : event.Holds P result.2.envs.size
  outcome (value : Value) (hvalue : result.1 = .value value) : P result.2.envs.size value
  state : result.2.Holds P
  size : before.envs.size ≤ result.2.envs.size
  replay : result.2.envs = replay before.envs record

/-- A recorder that keeps what an evaluator does, where everything has the property. -/
structure Keeps (P : (scopes : Nat) → Value → Prop) (ev : Evaluator) (record : Recorder) :
    Prop where
  kept {expr : Value} {scope : Nat} {state : State} (hstate : state.Holds P)
    (hscope : scope < state.envs.size) (hexpr : P state.envs.size expr) :
    Kept P state (record expr scope state) (ev expr scope state)

theorem Kept.stop {state : State} {outcome : Outcome} (hstate : state.Holds P)
    (houtcome : ∀ value, outcome = .value value → P state.envs.size value) :
    Kept P state [] (outcome, state) :=
  ⟨by simp, houtcome, hstate, Nat.le_refl _, rfl⟩

theorem Kept.failed {state : State} (hstate : state.Holds P) (failure : Failure) :
    Kept P state [] (.failed failure, state) :=
  .stop hstate fun _ hvalue => by cases hvalue

theorem Kept.fail {state : State} (hstate : state.Holds P) (reason : Reason) :
    Kept P state [] (.fail reason, state) :=
  .failed hstate (.of reason)

theorem Kept.crash {state : State} (hstate : state.Holds P) :
    Kept P state [] (.crashed, state) :=
  .stop hstate fun _ hvalue => by cases hvalue

theorem Kept.value {state : State} {value : Value} (hstate : state.Holds P)
    (hvalue : P state.envs.size value) : Kept P state [] (.value value, state) := by
  apply Kept.stop hstate
  rintro _ ⟨⟩
  exact hvalue

/-- One record behind another. -/
theorem Kept.append (hP : Inherited P) {state middle : State} {first rest : List Event}
    {outcome : Outcome} {result : Outcome × State} (hfirst : Kept P state first (outcome, middle))
    (hrest : Kept P middle rest result) : Kept P state (first ++ rest) result where
  events event hevent := by
    rcases List.mem_append.mp hevent with hevent | hevent
    · exact hP.event (hfirst.events event hevent) hrest.size
    · exact hrest.events event hevent
  outcome := hrest.outcome
  state := hrest.state
  size := Nat.le_trans hfirst.size hrest.size
  replay := by rw [replay_append, ← hfirst.replay, hrest.replay]

theorem Kept.andThen (hP : Inherited P) {state : State} {record : List Event}
    {first : Outcome × State} {next : Value → State → Outcome × State}
    {nextRecord : Value → State → List Event} (hfirst : Kept P state record first)
    (hnext : ∀ value (middle : State), P middle.envs.size value → middle.Holds P →
      state.envs.size ≤ middle.envs.size →
        Kept P middle (nextRecord value middle) (next value middle)) :
    Kept P state (recordThen record first nextRecord) (andThen first next) := by
  obtain ⟨outcome, middle⟩ := first
  cases outcome with
  | value value =>
      have hrest := hnext value middle (hfirst.outcome value rfl) hfirst.state hfirst.size
      exact hfirst.append hP hrest
  | _ => exact hfirst

theorem Kept.define {state : State} {scope : Nat} {name : Symbol} {value answer : Value}
    (hstate : state.Holds P) (hscope : scope < state.envs.size)
    (hname : name.isConstant = false) (hvalue : P state.envs.size value)
    (hanswer : P state.envs.size answer) :
    Kept P state [.defined scope name value]
      (.value answer, state.define scope name value) := by
  have hsize : (state.define scope name value).envs.size = state.envs.size :=
    Array.size_modify
  refine ⟨?_, ?_, hstate.define scope name hvalue, Nat.le_of_eq hsize.symm, rfl⟩
  · intro event hevent
    rw [List.mem_singleton.mp hevent]
    dsimp only
    rw [hsize]
    exact ⟨hscope, hname, hvalue⟩
  · rintro _ ⟨⟩
    dsimp only
    rw [hsize]
    exact hanswer

section

variable {ev : Evaluator} {record : Recorder} {config : Config} {scope : Nat} {state : State}

theorem kept_arguments (hP : Inherited P) (hkeeps : Keeps P ev record) (all : Value)
    {rest : Value} {found : List Value} (hstate : state.Holds P)
    (hscope : scope < state.envs.size) (hrest : P state.envs.size rest)
    (hfound : ∀ item ∈ found, P state.envs.size item) :
    Kept P state (sequenceRecord ev record scope rest state)
      (arguments ev scope all rest found state) := by
  induction rest generalizing found state with
  | pair head tail _ ih =>
      obtain ⟨hhead, htail⟩ := hP.pair.mp hrest
      rw [sequenceRecord, arguments_pair]
      apply (hkeeps.kept hstate hscope hhead).andThen hP
      intro value middle hvalue hmiddle hsize
      apply ih hmiddle (Nat.lt_of_lt_of_le hscope hsize) (hP.mono htail hsize)
      rw [List.forall_mem_cons]
      exact ⟨hvalue, fun item hmem => hP.mono (hfound item hmem) hsize⟩
  | _ =>
      rw [sequenceRecord, arguments]
      · split_ifs
        · apply Kept.value hstate
          exact hP.ofList fun item hmem => hfound item (List.mem_reverse.mp hmem)
        · exact .fail hstate _
      · exact fun _ _ => Value.noConfusion
      · exact fun _ _ => Value.noConfusion

theorem kept_body (hP : Inherited P) (hkeeps : Keeps P ev record) {rest last : Value}
    (hstate : state.Holds P) (hscope : scope < state.envs.size)
    (hrest : P state.envs.size rest) (hlast : P state.envs.size last) :
    Kept P state (sequenceRecord ev record scope rest state)
      (body ev scope rest last state) := by
  induction rest generalizing last state with
  | pair head tail _ ih =>
      obtain ⟨hhead, htail⟩ := hP.pair.mp hrest
      rw [sequenceRecord, body_pair]
      apply (hkeeps.kept hstate hscope hhead).andThen hP
      intro value middle hvalue hmiddle hsize
      exact ih hmiddle (Nat.lt_of_lt_of_le hscope hsize) (hP.mono htail hsize) hvalue
  | _ => exact .value hstate hlast

/-- A new environment can be bound in before or after it is added. -/
theorem define_addEnv (state : State) (env : Env) (symbol : Symbol) (value : Value) :
    (state.addEnv env).2.define state.envs.size symbol value =
      (state.addEnv (env.define symbol value)).2 := by
  have henvs : (state.envs.push env).modify state.envs.size (·.define symbol value) =
      state.envs.push (env.define symbol value) := by
    apply Array.ext_getElem?
    intro number
    rw [Array.getElem?_modify, Array.getElem?_push, Array.getElem?_push]
    by_cases hnumber : number = state.envs.size
    · simp [hnumber]
    · simp [hnumber, Ne.symm hnumber]
  simp only [State.define, State.addEnv, henvs]

theorem kept_copy (hP : Inherited P) {captured : Nat} {env : Env} (hstate : state.Holds P)
    (henv : state.envs[captured]? = some env) :
    Kept P state [.copied captured] (.value .empty, (state.addEnv env).2) := by
  have hsize : (state.addEnv env).2.envs.size = state.envs.size + 1 := Array.size_push ..
  have hlt := (Array.getElem?_eq_some_iff.mp henv).1
  have hle : state.envs.size ≤ (state.addEnv env).2.envs.size := by omega
  refine ⟨?_, ?_, hstate.addEnv hP (hstate captured env henv), hle, ?_⟩
  · intro event hevent
    rw [List.mem_singleton.mp hevent]
    exact Nat.lt_of_lt_of_le hlt hle
  · rintro _ ⟨⟩
    exact hP.empty _
  · simp [MiniLisp.replay, Event.replay, henv, State.addEnv]

/-- Parameters are bound one after the other in the copy. -/
theorem kept_bind (hP : Inherited P) {callee : Symbol} {all parameters arguments : Value}
    {env bound : Env} (hstate : (state.addEnv env).2.Holds P)
    (harguments : P (state.addEnv env).2.envs.size arguments)
    (hbind : bind config callee all parameters arguments env = .ok bound) :
    Kept P (state.addEnv env).2 (bindRecord state.envs.size parameters arguments)
      (.value .empty, (state.addEnv bound).2) := by
  induction parameters generalizing arguments env with
  | pair first parameters _ ih =>
      cases first with
      | symbol parameter =>
          cases arguments with
          | pair argument arguments =>
              rw [bind] at hbind
              split_ifs at hbind with hconstant
              have hsize : (state.addEnv env).2.envs.size =
                  (state.addEnv (env.define parameter argument)).2.envs.size := by
                simp [State.addEnv]
              obtain ⟨hargument, hrest⟩ := hP.pair.mp harguments
              have hscope : state.envs.size < (state.addEnv env).2.envs.size := by
                simp [State.addEnv]
              have hdefine := Kept.define hstate hscope (Bool.eq_false_iff.mpr hconstant)
                hargument (hP.empty _)
              rw [define_addEnv] at hdefine
              exact hdefine.append hP (ih hdefine.state (hsize ▸ hrest) hbind)
          | _ =>
              rw [bind] at hbind
              · split_ifs at hbind
              · exact fun _ _ => Value.noConfusion
      | _ => cases hbind
  | _ =>
      rw [bind] at hbind
      · split_ifs at hbind
        cases hbind
        exact .value hstate (hP.empty _)
      all_goals exact fun _ _ => Value.noConfusion

theorem kept_closure (hP : Inherited P) (hkeeps : Keeps P ev record) (name : Symbol)
    (parameters : Value) {expressions arguments : Value} (captured : Nat)
    (hstate : state.Holds P) (hbody : P state.envs.size expressions)
    (harguments : P state.envs.size arguments) :
    Kept P state
      (closureRecord ev record config name parameters expressions captured arguments state)
      (callClosure ev config name parameters expressions (some captured) arguments state) := by
  rw [closureRecord, callClosure, Option.bind_some]
  cases henv : state.envs[captured]? with
  | none => exact .crash hstate
  | some env =>
      dsimp only
      cases hbind : bind config name parameters parameters arguments env with
      | error reason => exact .fail hstate reason
      | ok bound =>
          have hcopy := kept_copy hP hstate henv
          have hgrown := hP.mono harguments hcopy.size
          have hbound := hcopy.append hP (kept_bind hP hcopy.state hgrown hbind)
          have hlt : state.envs.size < (state.addEnv bound).2.envs.size := by
            simp [State.addEnv]
          exact hbound.append hP
            (kept_body hP hkeeps hbound.state hlt (hP.mono hbody hbound.size) (hP.empty _))

theorem kept_call (hP : Inherited P) (hkeeps : Keeps P ev record) {function arguments : Value}
    (hstate : state.Holds P) (hfunction : P state.envs.size function)
    (harguments : P state.envs.size arguments) :
    Kept P state (callRecord ev record config function arguments state)
      (call ev config function arguments state) := by
  cases function with
  | primitive primitive =>
      exact ⟨by simp [callRecord], fun value hvalue => hP.call harguments hvalue, hstate,
        Nat.le_refl _, rfl⟩
  | closure name parameters expressions scope =>
      cases scope with
      | none => exact .crash hstate
      | some captured =>
          exact kept_closure hP hkeeps name parameters captured hstate (hP.body hfunction)
            harguments
  | _ => exact .crash hstate

/-- The end of an application leaves the record and the environments as they are. -/
theorem Kept.finish {events : List Event} {result : Outcome × State}
    (hresult : Kept P state events result) : Kept P state events (finish result) := by
  have hvalue : ∀ value, (Eval.finish result).1 = .value value → result.1 = .value value := by
    intro value hfinished
    obtain ⟨outcome, after⟩ := result
    obtain ⟨envs, depth, calls, out, log⟩ := after
    cases outcome <;> cases calls <;>
      simp_all [Eval.finish, State.popCall?, Outcome.attachStack]
  have henvs := (finish_state result).1
  refine ⟨?_, ?_, ?_, ?_, ?_⟩
  · rw [henvs]
    exact hresult.events
  · rw [henvs]
    exact fun value hfinished => hresult.outcome value (hvalue value hfinished)
  · intro number env henv
    rw [henvs] at henv ⊢
    exact hresult.state number env henv
  · rw [henvs]
    exact hresult.size
  · rw [henvs]
    exact hresult.replay

theorem kept_apply (hP : Inherited P) (hkeeps : Keeps P ev record) {function arguments : Value}
    (hstate : state.Holds P) (hfunction : P state.envs.size function)
    (harguments : P state.envs.size arguments) :
    Kept P state (applyRecord ev record config function arguments state)
      (apply ev config function arguments state) := by
  rw [applyRecord, apply]
  cases hframe : Frame.of? function with
  | none => exact .fail hstate _
  | some frame =>
      have hcall : Kept P (state.pushCall frame)
          (callRecord ev record config function arguments (state.pushCall frame))
          (call ev config function arguments (state.pushCall frame)) :=
        kept_call hP hkeeps hstate hfunction harguments
      have happlied : Kept P state [.applied function arguments]
          (.value .empty, state.pushCall frame) := by
        refine ⟨?_, ?_, hstate, Nat.le_refl _, rfl⟩
        · intro event hevent
          rw [List.mem_singleton.mp hevent]
          exact ⟨hfunction, harguments⟩
        · rintro _ ⟨⟩
          exact hP.empty _
      exact (happlied.append hP hcall).finish

theorem kept_application (hP : Inherited P) (hkeeps : Keeps P ev record) {head tail : Value}
    (hstate : state.Holds P) (hscope : scope < state.envs.size)
    (hhead : P state.envs.size head) (htail : P state.envs.size tail) :
    Kept P state
      (recordThen (record head scope state) (ev head scope state)
        (applyToRecord ev record config tail scope))
      (application ev config head tail scope state) := by
  rw [application_eq]
  apply (hkeeps.kept hstate hscope hhead).andThen hP
  intro function middle hfunction hmiddle hsize
  rw [applyToRecord, applyTo]
  split_ifs
  · exact .fail hmiddle _
  · have hwithin := Nat.lt_of_lt_of_le hscope hsize
    apply (kept_arguments hP hkeeps tail hmiddle hwithin (hP.mono htail hsize)
      (by simp)).andThen hP
    intro values last hvalues hlast hsize'
    exact kept_apply hP hkeeps hlast (hP.mono hfunction hsize') hvalues

theorem kept_conditional (hP : Inherited P) (hkeeps : Keeps P ev record) {tail : Value}
    (hstate : state.Holds P) (hscope : scope < state.envs.size)
    (htail : P state.envs.size tail) :
    Kept P state (conditionalRecord ev record tail scope state)
      (conditional ev tail scope state) := by
  cases hitems : checkedArguments Symbol.ifForm.name ⟨2, some 3⟩ tail with
  | error reason =>
      simp only [conditionalRecord, conditional, hitems]
      exact .fail hstate reason
  | ok items =>
      have hall := hP.checkedArguments htail hitems
      rcases items with _ | ⟨test, _ | ⟨yes, rest⟩⟩
      · simp only [conditionalRecord, conditional, hitems]
        exact .crash hstate
      · simp only [conditionalRecord, conditional, hitems]
        exact .crash hstate
      · simp only [conditionalRecord, hitems]
        rw [conditional_eq ev hitems]
        apply (hkeeps.kept hstate hscope (hall test (by simp))).andThen hP
        intro value middle _ hmiddle hsize
        have hwithin := Nat.lt_of_lt_of_le hscope hsize
        unfold branchRecord branch
        split
        · exact hkeeps.kept hmiddle hwithin (hP.mono (hall yes (by simp)) hsize)
        · rcases rest with _ | ⟨no, rest⟩
          · exact .value hmiddle (hP.empty _)
          · exact hkeeps.kept hmiddle hwithin (hP.mono (hall no (by simp)) hsize)

theorem kept_definition (hP : Inherited P) (hkeeps : Keeps P ev record) {tail : Value}
    (hstate : state.Holds P) (hscope : scope < state.envs.size)
    (htail : P state.envs.size tail) :
    Kept P state (definitionRecord ev record tail scope state)
      (definition ev tail scope state) := by
  cases hitems : checkedArguments Symbol.defineForm.name (.exactly 2) tail with
  | error reason =>
      simp only [definitionRecord, definition, hitems]
      exact .fail hstate reason
  | ok items =>
      have hall := hP.checkedArguments htail hitems
      rcases items with _ | ⟨target, _ | ⟨expr, rest⟩⟩
      · simp only [definitionRecord, definition, hitems]
        exact .crash hstate
      · simp only [definitionRecord, definition, hitems]
        exact .crash hstate
      · cases hname : definedName .defineForm target with
        | error reason =>
            simp only [definitionRecord, definition, hitems, hname]
            exact .fail hstate reason
        | ok name =>
            simp only [definitionRecord, hitems, hname]
            rw [definition_eq ev hitems hname]
            apply (hkeeps.kept hstate hscope (hall expr (by simp))).andThen hP
            intro value middle hvalue hmiddle hsize
            exact .define hmiddle (Nat.lt_of_lt_of_le hscope hsize)
              (Effect.isConstant_of_definedName hname) hvalue hvalue

theorem kept_functionDefinition (hP : Inherited P) {tail : Value} (hstate : state.Holds P)
    (hscope : scope < state.envs.size) (htail : P state.envs.size tail) :
    Kept P state (functionDefinitionRecord tail scope)
      (functionDefinition tail scope state) := by
  cases hitems : checkedArguments Symbol.defunForm.name (.atLeast 3) tail with
  | error reason =>
      simp only [functionDefinitionRecord, functionDefinition, hitems]
      exact .fail hstate reason
  | ok items =>
      have hall := hP.checkedArguments htail hitems
      rcases items with _ | ⟨target, _ | ⟨parameters, expressions⟩⟩
      · simp only [functionDefinitionRecord, functionDefinition, hitems]
        exact .crash hstate
      · simp only [functionDefinitionRecord, functionDefinition, hitems]
        exact .crash hstate
      · cases hname : definedName .defunForm target with
        | error reason =>
            simp only [functionDefinitionRecord, functionDefinition, hitems, hname]
            exact .fail hstate reason
        | ok name =>
            have hbody : P state.envs.size (.ofList expressions) :=
              hP.ofList fun item hmem => hall item (by simp [hmem])
            simp only [functionDefinitionRecord, functionDefinition, hitems, hname]
            exact .define hstate hscope (Effect.isConstant_of_definedName hname)
              (hP.closure name (hall parameters (by simp)) hbody hscope) (hP.symbol _ name)

theorem kept_quotation (hP : Inherited P) {tail : Value} (hstate : state.Holds P)
    (htail : P state.envs.size tail) : Kept P state [] (quotation tail state) := by
  rw [quotation]
  split
  · exact .fail hstate _
  · next value rest hitems =>
      exact .value hstate (hP.checkedArguments htail hitems value (by simp))
  · exact .crash hstate

theorem kept_symbol (hP : Inherited P) (name : Symbol) (scope : Nat) (hstate : state.Holds P) :
    Kept P state [] (symbol name scope state, state) := by
  rw [symbol]
  split
  · exact .crash hstate
  · next env henv =>
      split
      · next value hvalue => exact .value hstate (hstate.lookup? hP henv hvalue)
      · exact .fail hstate _

/-- What is kept of the parts of an expression is kept of the whole. -/
theorem kept_expression (hP : Inherited P) (hkeeps : Keeps P ev record) {expr : Value}
    (hstate : state.Holds P) (hscope : scope < state.envs.size)
    (hexpr : P state.envs.size expr) :
    Kept P state (expressionRecord ev record config expr scope state)
      (expression ev config expr scope state) := by
  cases expr with
  | symbol name => exact kept_symbol hP name scope hstate
  | pair head tail =>
      obtain ⟨hhead, htail⟩ := hP.pair.mp hexpr
      rw [expressionRecord, expression, pair]
      split_ifs
      · exact kept_conditional hP hkeeps hstate hscope htail
      · exact kept_definition hP hkeeps hstate hscope htail
      · exact kept_functionDefinition hP hstate hscope htail
      · exact kept_quotation hP hstate htail
      · exact kept_application hP hkeeps hstate hscope hhead htail
  | _ => exact .value hstate hexpr

end

/-- The value of an evaluation is the last of its events. -/
theorem Kept.yield {state : State} {events : List Event} {result : Outcome × State}
    (hresult : Kept P state events result) :
    Kept P state
      (match result.1 with
        | .value value => events ++ [.yielded value]
        | _ => events) result := by
  obtain ⟨outcome, after⟩ := result
  cases outcome with
  | value value =>
      refine ⟨?_, hresult.outcome, hresult.state, hresult.size, ?_⟩
      · intro event hevent
        rcases List.mem_append.mp hevent with hevent | hevent
        · exact hresult.events event hevent
        · rw [List.mem_singleton.mp hevent]
          exact hresult.outcome value rfl
      · rw [replay_append, ← hresult.replay]
        rfl
  | _ => exact hresult

/-- An evaluation keeps every inherited property, and its record leads from the environments
before it to those behind it. -/
theorem keeps_eval (hP : Inherited P) (config : Config) (fuel : Nat) :
    Keeps P (eval config fuel) (evalRecord config fuel) := by
  induction fuel with
  | zero => exact ⟨fun hstate _ _ => .stop hstate fun _ hvalue => by cases hvalue⟩
  | succ fuel ih =>
      constructor
      intro expr scope state hstate hscope hexpr
      have hparts : Kept P state
          (if config.exceeds state.enter.depth then []
            else expressionRecord (eval config fuel) (evalRecord config fuel) config expr scope
              state.enter)
          (eval config (fuel + 1) expr scope state) := by
        rw [eval]
        split_ifs
        · have hfailed := Kept.fail (P := P) hstate (.depthExceeded config.maxDepth)
          exact ⟨hfailed.events, hfailed.outcome, hstate, hfailed.size, hfailed.replay⟩
        · have hresult : Kept P state.enter
              (expressionRecord (eval config fuel) (evalRecord config fuel) config expr scope
                state.enter)
              (expression (eval config fuel) config expr scope state.enter) :=
            kept_expression hP ih hstate hscope hexpr
          exact ⟨hresult.events, hresult.outcome, hresult.state, hresult.size, hresult.replay⟩
      exact hparts.yield

end Eval

end

/-! ### Records of an interpreter -/

namespace Interpreter

/-- An evaluation that is asked of an interpreter. -/
inductive Request where
  | eval (expr : Value)
  | evalText (text : Bytes)
  | load (name : Bytes) (source : Source)
  | apply (function arguments : Value)
  | call (function arguments : Value)
deriving DecidableEq, Repr

def perform (it : Interpreter) : Request → Outcome × Interpreter
  | .eval expr => it.eval expr
  | .evalText text => it.evalText text
  | .load name source => it.load name source
  | .apply function arguments => it.apply function arguments
  | .call function arguments => it.call function arguments

/-- Do one thing after the other, whatever the outcomes. -/
def performAll : Interpreter → List Request → List Outcome × Interpreter
  | it, [] => ([], it)
  | it, request :: rest =>
      let (outcome, it) := it.perform request
      let (outcomes, it) := performAll it rest
      (outcome :: outcomes, it)

def recorder (it : Interpreter) : Eval.Recorder :=
  evalRecord it.config (it.config.fuel it.state.depth)

def evalRecord (it : Interpreter) (expr : Value) : List Event :=
  it.recorder expr State.globalScope it.state

/-- The record of evaluating expressions in order up to the first that gives no value. -/
def evalAllRecord : Interpreter → List Value → List Event
  | _, [] => []
  | it, expr :: rest =>
      match it.eval expr with
      | (.value _, after) => it.evalRecord expr ++ evalAllRecord after rest
      | _ => it.evalRecord expr

def record (it : Interpreter) : Request → List Event
  | .eval expr => it.evalRecord expr
  | .evalText text =>
      match it.read text with
      | .ok expr => it.evalRecord expr
      | .error _ => []
  | .load name source =>
      match it.reader with
      | none => []
      | some reader =>
          match reader.readProgram name source with
          | .ok exprs => it.evalAllRecord exprs
          | .error _ => []
  | .apply function arguments =>
      Eval.applyRecord it.evaluator it.recorder it.config function arguments it.state
  | .call function arguments =>
      Eval.callRecord it.evaluator it.recorder it.config function arguments it.state

def recordAll : Interpreter → List Request → List Event
  | _, [] => []
  | it, request :: rest => it.record request ++ recordAll (it.perform request).2 rest

def Request.Holds (P : (scopes : Nat) → Value → Prop) (scopes : Nat) : Request → Prop
  | .eval expr => P scopes expr
  | .apply function arguments => P scopes function ∧ P scopes arguments
  | .call function arguments => P scopes function ∧ P scopes arguments
  | _ => True

/-- A record and a result of an interpreter that is at work in an environment. -/
def Kept (P : (scopes : Nat) → Value → Prop) (it : Interpreter) (record : List Event)
    (result : Outcome × Interpreter) : Prop :=
  Eval.Kept P it.state record (result.1, result.2.state)

section

variable {P : (scopes : Nat) → Value → Prop} {it : Interpreter}

theorem kept_eval (hP : Inherited P) {expr : Value} (hstate : it.state.Holds P)
    (hglobal : State.globalScope < it.state.envs.size) (hexpr : P it.state.envs.size expr) :
    Kept P it (it.evalRecord expr) (it.eval expr) :=
  (Eval.keeps_eval hP it.config _).kept hstate hglobal hexpr

theorem kept_evalAll (hP : Inherited P) {exprs : List Value} {last : Value}
    (hstate : it.state.Holds P) (hglobal : State.globalScope < it.state.envs.size)
    (hexprs : ∀ expr ∈ exprs, P it.state.envs.size expr) (hlast : P it.state.envs.size last) :
    Kept P it (it.evalAllRecord exprs) (evalAll (fun it _ => it) it exprs last) := by
  induction exprs generalizing it last with
  | nil => exact .value hstate hlast
  | cons expr rest ih =>
      rw [List.forall_mem_cons] at hexprs
      have hfirst := kept_eval hP hstate hglobal hexprs.1
      rw [evalAllRecord, evalAll]
      rcases heval : it.eval expr with ⟨outcome, after⟩
      rw [heval] at hfirst
      cases outcome with
      | value value =>
          have hrest := ih hfirst.state (Nat.lt_of_lt_of_le hglobal hfirst.size)
            (fun later hmem => hP.mono (hexprs.2 later hmem) hfirst.size)
            (hfirst.outcome value rfl)
          exact Eval.Kept.append hP hfirst hrest
      | _ => exact hfirst

theorem plain_read {text : Bytes} {expr : Value} (hread : it.read text = .ok expr) :
    expr.Plain := by
  rw [Interpreter.read] at hread
  split at hread
  · exact Reader.plain_read hread
  · cases hread

/-- Whatever is asked of an interpreter keeps what its environments inherit. -/
theorem kept_perform (hP : Inherited P) {request : Request} (hstate : it.state.Holds P)
    (hglobal : State.globalScope < it.state.envs.size)
    (hrequest : request.Holds P it.state.envs.size) :
    Kept P it (it.record request) (it.perform request) := by
  cases request with
  | eval expr => exact kept_eval hP hstate hglobal hrequest
  | evalText text =>
      simp only [record, perform, evalText]
      cases hread : it.read text with
      | error failure => exact .failed hstate failure
      | ok expr =>
          exact kept_eval hP hstate hglobal (hP.plain _ (plain_read hread))
  | load name source =>
      simp only [record, perform, load]
      cases it.reader with
      | none => exact .failed hstate noReader
      | some reader =>
          dsimp only
          cases hread : reader.readProgram name source with
          | error failure => exact .failed hstate failure
          | ok exprs =>
              have hplain := Reader.plain_readProgram hread
              exact kept_evalAll hP hstate hglobal
                (fun expr hmem => hP.plain _ (hplain expr hmem)) (hP.empty _)
  | apply function arguments =>
      exact Eval.kept_apply hP (Eval.keeps_eval hP it.config _) hstate hrequest.1 hrequest.2
  | call function arguments =>
      exact Eval.kept_call hP (Eval.keeps_eval hP it.config _) hstate hrequest.1 hrequest.2

theorem Request.Holds.mono (hP : Inherited P) {request : Request} {scopes scopes' : Nat}
    (hrequest : request.Holds P scopes) (hle : scopes ≤ scopes') :
    request.Holds P scopes' := by
  cases request with
  | eval expr => exact hP.mono hrequest hle
  | evalText text => trivial
  | load name source => trivial
  | apply function arguments => exact ⟨hP.mono hrequest.1 hle, hP.mono hrequest.2 hle⟩
  | call function arguments => exact ⟨hP.mono hrequest.1 hle, hP.mono hrequest.2 hle⟩

/-- The record and the results of a run: what happened, the outcomes and the environments
have a property, and the environments are those that the record leads to. -/
structure KeptAll (P : (scopes : Nat) → Value → Prop) (it : Interpreter)
    (record : List Event) (results : List Outcome × Interpreter) : Prop where
  events (event : Event) (hevent : event ∈ record) :
    event.Holds P results.2.state.envs.size
  outcomes (value : Value) (hvalue : .value value ∈ results.1) :
    P results.2.state.envs.size value
  state : results.2.state.Holds P
  size : it.state.envs.size ≤ results.2.state.envs.size
  replay : results.2.state.envs = replay it.state.envs record

/-- A run keeps what every single request keeps. -/
theorem kept_performAll (hP : Inherited P) {requests : List Request}
    (hstate : it.state.Holds P) (hglobal : State.globalScope < it.state.envs.size)
    (hrequests : ∀ request ∈ requests, request.Holds P it.state.envs.size) :
    KeptAll P it (it.recordAll requests) (it.performAll requests) := by
  induction requests generalizing it with
  | nil => exact ⟨by simp [recordAll], by simp [performAll], hstate, Nat.le_refl _, rfl⟩
  | cons request rest ih =>
      rw [List.forall_mem_cons] at hrequests
      have hfirst := kept_perform hP hstate hglobal hrequests.1
      have hrest := ih hfirst.state (Nat.lt_of_lt_of_le hglobal hfirst.size)
        (fun later hmem => (hrequests.2 later hmem).mono hP hfirst.size)
      refine ⟨?_, ?_, hrest.state, Nat.le_trans hfirst.size hrest.size, ?_⟩
      · intro event hevent
        rcases List.mem_append.mp hevent with hevent | hevent
        · exact hP.event (hfirst.events event hevent) hrest.size
        · exact hrest.events event hevent
      · intro value hvalue
        rcases List.mem_cons.mp hvalue with hvalue | hvalue
        · exact hP.mono (hfirst.outcome value hvalue.symm) hrest.size
        · exact hrest.outcomes value hvalue
      · rw [recordAll, replay_append]
        have hmiddle := hfirst.replay
        rw [← hmiddle]
        exact hrest.replay

end

end Interpreter

end MiniLisp
