import MiniLisp.Proofs.Inheritance

/-!
Safety.  A value is sound if it and its parts exist: its functions were defined in
environments that there are, and its primitives get the arguments that they need.
Everything that a program can build in sound environments is sound, and evaluation never
crashes there.
-/

namespace MiniLisp

/-- How many arguments an operation cannot do without. -/
def Operation.needs : Operation → Nat
  | .cons => 2
  | .subtract | .divide | .not | .first | .rest => 1
  | .isNull | .isList | .isSymbol | .isNumber => 1
  | _ => 0

/-- A primitive takes no fewer arguments than its operation needs. -/
def Primitive.Sound (primitive : Primitive) : Prop :=
  primitive.operation.needs ≤ primitive.arity.least

instance (primitive : Primitive) : Decidable primitive.Sound :=
  inferInstanceAs (Decidable (_ ≤ _))

theorem Primitive.sound_builtins : ∀ primitive ∈ Primitive.builtins, primitive.Sound := by
  decide

namespace Value

/-- A value that exists with all of its parts, where there are environments with the
numbers below `scopes`. -/
def Sound (scopes : Nat) : Value → Prop
  | .pair head tail => head.Sound scopes ∧ tail.Sound scopes
  | .primitive p => p.Sound
  | .closure _ _ body scope => body.Sound scopes ∧ ∃ number < scopes, scope = some number
  | .absent => False
  | _ => True

theorem Sound.mono {scopes scopes' : Nat} {value : Value} (hsound : value.Sound scopes)
    (hle : scopes ≤ scopes') : value.Sound scopes' := by
  induction value with
  | pair head tail ihead itail => exact ⟨ihead hsound.1, itail hsound.2⟩
  | closure name parameters body scope _ ibody =>
      obtain ⟨hbody, number, hnumber, hscope⟩ := hsound
      exact ⟨ibody hbody, number, Nat.lt_of_lt_of_le hnumber hle, hscope⟩
  | _ => exact hsound

theorem inherited_sound : Inherited Sound where
  mono := Sound.mono
  symbol _ _ := trivial
  int _ _ := trivial
  text _ _ := trivial
  pair := Iff.rfl
  closure _ _ _ _ hbody hscope := ⟨hbody, _, hscope, rfl⟩
  body hclosure := hclosure.1

theorem Sound.exists_kind {scopes : Nat} {value : Value} (hvalue : value.Sound scopes) :
    ∃ kind, value.kind? = some kind := by
  cases value with
  | absent => exact hvalue.elim
  | _ => exact ⟨_, rfl⟩

end Value

/-! ### Primitives -/

namespace Outcome

/-- No crash, and a sound value if there is one. -/
def Sound (scopes : Nat) : Outcome → Prop
  | .value result => result.Sound scopes
  | .crashed => False
  | _ => True

theorem sound_fail (scopes : Nat) (reason : Reason) : (fail reason).Sound scopes :=
  trivial

theorem Sound.ne_crashed {scopes : Nat} {outcome : Outcome} (hsound : outcome.Sound scopes) :
    outcome ≠ .crashed := by
  rintro rfl
  exact hsound

theorem sound_of_ne_crashed {scopes : Nat} {outcome : Outcome} (hcrash : outcome ≠ .crashed)
    (hvalue : ∀ value, outcome = .value value → value.Sound scopes) :
    outcome.Sound scopes := by
  cases outcome with
  | value value => exact hvalue value rfl
  | crashed => exact absurd rfl hcrash
  | _ => trivial

end Outcome

namespace Operation

theorem length_integers {callee : Bytes} {arguments : List Value} {ns : List Int64}
    (hintegers : integers callee arguments = .ok ns) : ns.length = arguments.length := by
  induction arguments generalizing ns with
  | nil =>
      cases hintegers
      rfl
  | cons argument arguments ih =>
      rw [integers, List.mapM_cons] at hintegers
      cases hfirst : integer callee argument with
      | error reason =>
          rw [hfirst] at hintegers
          cases hintegers
      | ok n =>
          cases hrest : arguments.mapM (integer callee) with
          | error reason =>
              rw [hfirst, hrest] at hintegers
              cases hintegers
          | ok ms =>
              rw [hfirst, hrest] at hintegers
              cases hintegers
              simp [ih hrest]

theorem arithmetic_ne_crashed (callee : Bytes) {arguments : List Value}
    {compute : List Int64 → Outcome}
    (hcompute : ∀ ns, ns.length = arguments.length → compute ns ≠ .crashed) :
    arithmetic callee arguments compute ≠ .crashed := by
  rw [arithmetic]
  split
  · next ns hintegers => exact hcompute ns (length_integers hintegers)
  · exact Outcome.noConfusion

theorem comparison_ne_crashed (callee : Bytes) (arguments : List Value)
    (related : Int64 → Int64 → Bool) : comparison callee arguments related ≠ .crashed :=
  arithmetic_ne_crashed callee fun _ _ => Outcome.noConfusion

theorem exists_difference {ns : List Int64} (hns : ns ≠ []) : ∃ n, difference ns = some n := by
  match ns with
  | [] => exact absurd rfl hns
  | [n] => exact ⟨_, rfl⟩
  | minuend :: n :: subtrahends => exact ⟨_, rfl⟩

theorem exists_quotient {ns : List Int64} (hns : ns ≠ []) :
    ∃ result, quotient ns = some result := by
  cases ns with
  | nil => exact absurd rfl hns
  | cons dividend divisors => exact ⟨_, rfl⟩

/-- A predicate on kinds has an answer about every value that exists. -/
theorem answer_kind_ne_crashed {scopes : Nat} {value : Value} (hvalue : value.Sound scopes)
    (p : Value.Kind → Bool) : answer (value.kind?.map p) ≠ .crashed := by
  obtain ⟨kind, hkind⟩ := hvalue.exists_kind
  rw [hkind]
  exact Outcome.noConfusion

/-- An operation that writes nothing does not crash if it gets the arguments that it
needs. -/
theorem compute_ne_crashed {scopes : Nat} {operation : Operation} {arguments : List Value}
    (hprint : operation ≠ .print)
    (harguments : ∀ argument ∈ arguments, argument.Sound scopes)
    (hneeds : operation.needs ≤ arguments.length) :
    operation.compute arguments ≠ .crashed := by
  have hnonempty : 1 ≤ arguments.length → ∀ ns : List Int64,
      ns.length = arguments.length → ns ≠ [] := by
    rintro hone ns hlength rfl
    rw [← hlength] at hone
    exact absurd hone (by decide)
  have hfirst : 1 ≤ arguments.length → ∃ value rest, arguments = value :: rest ∧
      value.Sound scopes := by
    intro hone
    cases arguments with
    | nil => exact absurd hone (by decide)
    | cons value rest => exact ⟨value, rest, rfl, harguments value (by simp)⟩
  cases operation with
  | print => exact absurd rfl hprint
  | add | multiply => exact arithmetic_ne_crashed _ fun _ _ => Outcome.noConfusion
  | subtract =>
      apply arithmetic_ne_crashed
      intro ns hns
      obtain ⟨n, hn⟩ := exists_difference (hnonempty hneeds ns hns)
      rw [hn]
      exact Outcome.noConfusion
  | divide =>
      apply arithmetic_ne_crashed
      intro ns hns
      obtain ⟨result, hresult⟩ := exists_quotient (hnonempty hneeds ns hns)
      rw [hresult]
      cases result <;> exact Outcome.noConfusion
  | equal | less | greater => exact comparison_ne_crashed _ arguments _
  | all | any | list => exact Outcome.noConfusion
  | cons =>
      rcases arguments with _ | ⟨head, _ | ⟨tail, rest⟩⟩
      · exact absurd hneeds (by decide)
      · exact absurd hneeds (by simp [needs])
      · exact Outcome.noConfusion
  | not | isNull =>
      obtain ⟨value, rest, rfl, _⟩ := hfirst hneeds
      exact Outcome.noConfusion
  | first | rest =>
      obtain ⟨value, rest, rfl, _⟩ := hfirst hneeds
      cases value <;> exact Outcome.noConfusion
  | isList =>
      obtain ⟨value, rest, rfl, hvalue⟩ := hfirst hneeds
      rw [compute, Value.isList?]
      split_ifs
      · exact Outcome.noConfusion
      · exact answer_kind_ne_crashed hvalue _
  | isSymbol | isNumber =>
      obtain ⟨value, rest, rfl, hvalue⟩ := hfirst hneeds
      exact answer_kind_ne_crashed hvalue _

theorem printLine_ne_crashed (arguments : List Value) (out : Sink) :
    (printLine arguments out).1 ≠ .crashed := by
  rw [printLine]
  split_ifs <;> exact Outcome.noConfusion

end Operation

namespace Primitive

theorem call_ne_crashed {scopes : Nat} {primitive : Primitive} {arguments : Value}
    (hprimitive : primitive.Sound) (harguments : arguments.Sound scopes) (out : Sink) :
    (primitive.call arguments out).1 ≠ .crashed := by
  rw [call]
  split
  · next items hitems =>
      have hsound := Value.inherited_sound.checkedArguments harguments hitems
      have hleast := (checkedArguments_eq_ok hitems).2
      unfold Operation.run
      split
      · exact Operation.printLine_ne_crashed items out
      · next hprint =>
          refine Operation.compute_ne_crashed hprint hsound ?_
          have hneeds : (primitive.operation.needs : Int) ≤ primitive.arity.least := hprimitive
          omega
  · exact Outcome.noConfusion

theorem sound_call {scopes : Nat} {primitive : Primitive} {arguments : Value}
    (hprimitive : primitive.Sound) (harguments : arguments.Sound scopes) (out : Sink) :
    (primitive.call arguments out).1.Sound scopes :=
  Outcome.sound_of_ne_crashed (call_ne_crashed hprimitive harguments out)
    fun _ hvalue => Value.inherited_sound.call harguments hvalue

end Primitive

/-! ### States -/

def Env.Sound (scopes : Nat) (env : Env) : Prop :=
  ∀ binding ∈ env.bindings, binding.value.Sound scopes

def State.Sound (state : State) : Prop :=
  ∀ (number : Nat) (env : Env),
    state.envs[number]? = some env → env.Sound state.envs.size

theorem State.Sound.holds {state : State} (hstate : state.Sound) : state.Holds Value.Sound :=
  hstate

/-! ### Evaluation -/

namespace Eval

/-- A result behind a state: no crash, everything in it is sound, and every environment is
still there. -/
structure Safe (before : State) (result : Outcome × State) : Prop where
  outcome : result.1.Sound result.2.envs.size
  state : result.2.Sound
  size : before.envs.size ≤ result.2.envs.size

/-- An evaluator that is safe on sound expressions, and drops the functions that it
applied. -/
structure SafeEvaluator (ev : Evaluator) : Prop where
  safe {expr : Value} {scope : Nat} {state : State} (hstate : state.Sound)
    (hscope : scope < state.envs.size) (hexpr : expr.Sound state.envs.size) :
    Safe state (ev expr scope state)
  calls (expr : Value) (scope : Nat) (state : State)
    (houtcome : (ev expr scope state).1 ≠ .crashed) :
    (ev expr scope state).2.calls = state.calls

theorem Safe.stop {state : State} {outcome : Outcome} (hstate : state.Sound)
    (houtcome : outcome.Sound state.envs.size) : Safe state (outcome, state) :=
  ⟨houtcome, hstate, Nat.le_refl _⟩

theorem Safe.andThen {state : State} {first : Outcome × State}
    {next : Value → State → Outcome × State} (hfirst : Safe state first)
    (hnext : ∀ value (middle : State), value.Sound middle.envs.size → middle.Sound →
      state.envs.size ≤ middle.envs.size → Safe middle (next value middle)) :
    Safe state (andThen first next) := by
  obtain ⟨outcome, middle⟩ := first
  cases outcome with
  | value value =>
      have hrest := hnext value middle hfirst.outcome hfirst.state hfirst.size
      exact ⟨hrest.outcome, hrest.state, Nat.le_trans hfirst.size hrest.size⟩
  | _ => exact hfirst

theorem safe_define {scope : Nat} {state : State} {value answer : Value}
    (hstate : state.Sound) (name : Symbol) (hvalue : value.Sound state.envs.size)
    (hanswer : answer.Sound state.envs.size) :
    Safe state (.value answer, state.define scope name value) := by
  have hsize : (state.define scope name value).envs.size = state.envs.size :=
    Array.size_modify
  refine ⟨?_, hstate.holds.define scope name hvalue, Nat.le_of_eq hsize.symm⟩
  rw [hsize]
  exact hanswer

section

variable {ev : Evaluator} {config : Config} {scope : Nat} {state : State}

theorem safe_arguments (hev : SafeEvaluator ev) (all : Value) {rest : Value}
    {found : List Value} (hstate : state.Sound) (hscope : scope < state.envs.size)
    (hrest : rest.Sound state.envs.size)
    (hfound : ∀ item ∈ found, item.Sound state.envs.size) :
    Safe state (arguments ev scope all rest found state) := by
  induction rest generalizing found state with
  | pair head tail _ ih =>
      rw [arguments_pair]
      refine (hev.safe hstate hscope hrest.1).andThen ?_
      intro value middle hvalue hmiddle hsize
      refine ih hmiddle (by omega) (hrest.2.mono hsize) ?_
      intro item hmem
      rcases List.mem_cons.mp hmem with rfl | hmem
      · exact hvalue
      · exact (hfound item hmem).mono hsize
  | _ =>
      rw [arguments]
      · split_ifs
        · refine .stop hstate (Value.inherited_sound.ofList fun item hmem => hfound item ?_)
          exact List.mem_reverse.mp hmem
        · exact .stop hstate (Outcome.sound_fail _ _)
      · exact fun _ _ => Value.noConfusion

theorem safe_body (hev : SafeEvaluator ev) {rest last : Value} (hstate : state.Sound)
    (hscope : scope < state.envs.size) (hrest : rest.Sound state.envs.size)
    (hlast : last.Sound state.envs.size) : Safe state (body ev scope rest last state) := by
  induction rest generalizing last state with
  | pair head tail _ ih =>
      rw [body_pair]
      refine (hev.safe hstate hscope hrest.1).andThen ?_
      intro value middle hvalue hmiddle hsize
      exact ih hmiddle (by omega) (hrest.2.mono hsize) hvalue
  | _ => exact .stop hstate hlast

/-- Parameters are bound to sound arguments. -/
theorem sound_bind {scopes : Nat} {callee : Symbol} {all parameters arguments : Value}
    {env bound : Env} (henv : env.Sound scopes) (harguments : arguments.Sound scopes)
    (hbind : bind config callee all parameters arguments env = .ok bound) :
    bound.Sound scopes := by
  induction parameters generalizing arguments env with
  | pair first parameters _ ih =>
      cases first with
      | symbol parameter =>
          cases arguments with
          | pair argument arguments =>
              rw [bind] at hbind
              split_ifs at hbind
              exact ih (Env.forall_mem_define henv parameter harguments.1) harguments.2 hbind
          | _ =>
              rw [bind] at hbind
              · split_ifs at hbind
              · exact fun _ _ => Value.noConfusion
      | _ => cases hbind
  | _ =>
      rw [bind] at hbind
      · split_ifs at hbind
        cases hbind
        exact henv
      all_goals exact fun _ _ => Value.noConfusion

theorem safe_call (hev : SafeEvaluator ev) {function arguments : Value} {frame : Frame}
    (hframe : Frame.of? function = some frame) (hstate : state.Sound)
    (hfunction : function.Sound state.envs.size)
    (harguments : arguments.Sound state.envs.size) :
    Safe state (call ev config function arguments state) := by
  cases function with
  | primitive primitive =>
      exact ⟨Primitive.sound_call hfunction harguments state.out, hstate, Nat.le_refl _⟩
  | closure name parameters expressions captured =>
      obtain ⟨hbody, number, hnumber, rfl⟩ := hfunction
      have henv : state.envs[number]? = some (state.envs[number]) :=
        Array.getElem?_eq_getElem hnumber
      rw [call, callClosure]
      simp only [Option.bind_some, henv]
      split
      · exact .stop hstate (Outcome.sound_fail _ _)
      · next bound hbind =>
          have hbound := sound_bind (hstate number _ henv) harguments hbind
          have hsize : (state.addEnv bound).2.envs.size = state.envs.size + 1 :=
            Array.size_push ..
          have hrun : Safe (state.addEnv bound).2
              (body ev state.envs.size expressions .empty (state.addEnv bound).2) :=
            safe_body hev (hstate.holds.addEnv Value.inherited_sound hbound) (by omega) (hbody.mono (by omega)) trivial
          exact ⟨hrun.outcome, hrun.state, Nat.le_trans (by omega) hrun.size⟩
  | _ => cases hframe

/-- The end of an application is safe where there is a function to drop. -/
theorem Safe.finish {result : Outcome × State} {frame : Frame} {below : CallStack}
    (hresult : Safe state result) (hcalls : result.2.calls = frame :: below) :
    Safe state (finish result) := by
  obtain ⟨outcome, after⟩ := result
  rw [finish_of_ne_crashed hresult.outcome.ne_crashed hcalls]
  refine ⟨?_, hresult.state, hresult.size⟩
  have houtcome := hresult.outcome
  cases outcome with
  | value value => exact houtcome
  | crashed => exact houtcome.elim
  | _ => trivial

theorem safe_apply (hev : SafeEvaluator ev) {function arguments : Value}
    (hstate : state.Sound) (hfunction : function.Sound state.envs.size)
    (harguments : arguments.Sound state.envs.size) :
    Safe state (apply ev config function arguments state) := by
  rw [apply]
  split
  · exact .stop hstate (Outcome.sound_fail _ _)
  · next frame hframe =>
      have hcall : Safe (state.pushCall frame)
          (call ev config function arguments (state.pushCall frame)) :=
        safe_call hev hframe hstate hfunction harguments
      have hcalls := (effect_calls config).call hev.calls State.globalScope function arguments
        (state.pushCall frame) hcall.outcome.ne_crashed
      have hdone := hcall.finish hcalls
      exact ⟨hdone.outcome, hdone.state, hdone.size⟩

theorem safe_application (hev : SafeEvaluator ev) {head tail : Value} (hstate : state.Sound)
    (hscope : scope < state.envs.size) (hhead : head.Sound state.envs.size)
    (htail : tail.Sound state.envs.size) :
    Safe state (application ev config head tail scope state) := by
  rw [application_eq]
  refine (hev.safe hstate hscope hhead).andThen ?_
  intro function middle hfunction hmiddle hsize
  rw [applyTo]
  split_ifs
  · exact .stop hmiddle (Outcome.sound_fail _ _)
  · refine (safe_arguments hev tail hmiddle (by omega) (htail.mono hsize) (by simp)).andThen ?_
    intro values last hvalues hlast hsize'
    exact safe_apply hev hlast (hfunction.mono hsize') hvalues

theorem safe_conditional (hev : SafeEvaluator ev) {tail : Value} (hstate : state.Sound)
    (hscope : scope < state.envs.size) (htail : tail.Sound state.envs.size) :
    Safe state (conditional ev tail scope state) := by
  cases hitems : checkedArguments Symbol.ifForm.name ⟨2, some 3⟩ tail with
  | error reason =>
      simp only [conditional, hitems]
      exact .stop hstate (Outcome.sound_fail _ _)
  | ok items =>
      have hleast := (checkedArguments_eq_ok hitems).2
      have hsound := Value.inherited_sound.checkedArguments htail hitems
      rcases items with _ | ⟨test, _ | ⟨yes, rest⟩⟩
      · exact absurd hleast (by decide)
      · exact absurd hleast (by simp)
      · rw [conditional_eq ev hitems]
        refine (hev.safe hstate hscope (hsound test (by simp))).andThen ?_
        intro value middle _ hmiddle hsize
        have hbranch : ∀ expr, expr.Sound state.envs.size → Safe middle (ev expr scope middle) :=
          fun expr hexpr => hev.safe hmiddle (by omega) (hexpr.mono hsize)
        unfold branch
        split
        · exact hbranch yes (hsound yes (by simp))
        · split
          · exact .stop hmiddle trivial
          · exact hbranch _ (hsound _ (by simp))

theorem safe_definition (hev : SafeEvaluator ev) {tail : Value} (hstate : state.Sound)
    (hscope : scope < state.envs.size) (htail : tail.Sound state.envs.size) :
    Safe state (definition ev tail scope state) := by
  cases hitems : checkedArguments Symbol.defineForm.name (.exactly 2) tail with
  | error reason =>
      simp only [definition, hitems]
      exact .stop hstate (Outcome.sound_fail _ _)
  | ok items =>
      have hleast := (checkedArguments_eq_ok hitems).2
      have hsound := Value.inherited_sound.checkedArguments htail hitems
      rcases items with _ | ⟨target, _ | ⟨expr, rest⟩⟩
      · exact absurd hleast (by decide)
      · exact absurd hleast (by simp [Arity.exactly])
      · cases hname : definedName .defineForm target with
        | error reason =>
            simp only [definition, hitems, hname]
            exact .stop hstate (Outcome.sound_fail _ _)
        | ok name =>
            rw [definition_eq ev hitems hname]
            refine (hev.safe hstate hscope (hsound expr (by simp))).andThen ?_
            intro value middle hvalue hmiddle _
            exact safe_define hmiddle name hvalue hvalue

theorem safe_functionDefinition {tail : Value} (hstate : state.Sound)
    (hscope : scope < state.envs.size) (htail : tail.Sound state.envs.size) :
    Safe state (functionDefinition tail scope state) := by
  rw [functionDefinition]
  split
  · exact .stop hstate (Outcome.sound_fail _ _)
  · next target parameters expressions hitems =>
      have hsound := Value.inherited_sound.checkedArguments htail hitems
      split
      · exact .stop hstate (Outcome.sound_fail _ _)
      · next name hname =>
          have hbody : (Value.ofList expressions).Sound state.envs.size :=
            Value.inherited_sound.ofList fun item hmem => hsound item (by simp [hmem])
          exact safe_define hstate name ⟨hbody, scope, hscope, rfl⟩ trivial
  · next items hshort hitems =>
      have hleast := (checkedArguments_eq_ok hitems).2
      rcases items with _ | ⟨target, _ | ⟨parameters, expressions⟩⟩
      · exact absurd hleast (by decide)
      · exact absurd hleast (by simp [Arity.atLeast])
      · exact absurd rfl (hshort target parameters expressions)

theorem safe_quotation {tail : Value} (hstate : state.Sound)
    (htail : tail.Sound state.envs.size) : Safe state (quotation tail state) := by
  rw [quotation]
  split
  · exact .stop hstate (Outcome.sound_fail _ _)
  · next value rest hitems =>
      have hsound := Value.inherited_sound.checkedArguments htail hitems
      exact .stop hstate (hsound value (by simp))
  · next items hshort hitems =>
      have hleast := (checkedArguments_eq_ok hitems).2
      cases items with
      | nil => exact absurd hleast (by decide)
      | cons value rest => exact absurd rfl (hshort value rest)

theorem safe_symbol (name : Symbol) (hstate : state.Sound)
    (hscope : scope < state.envs.size) : Safe state (symbol name scope state, state) := by
  have henv : state.envs[scope]? = some (state.envs[scope]) :=
    Array.getElem?_eq_getElem hscope
  refine .stop hstate ?_
  simp only [symbol, henv]
  split
  · next value hvalue => exact hstate.holds.lookup? Value.inherited_sound henv hvalue
  · exact Outcome.sound_fail _ _

/-- What is safe for the parts of an expression is safe for the whole. -/
theorem safe_expression (hev : SafeEvaluator ev) {expr : Value} (hstate : state.Sound)
    (hscope : scope < state.envs.size) (hexpr : expr.Sound state.envs.size) :
    Safe state (expression ev config expr scope state) := by
  cases expr with
  | symbol name => exact safe_symbol name hstate hscope
  | pair head tail =>
      rw [expression, pair]
      split_ifs
      · exact safe_conditional hev hstate hscope hexpr.2
      · exact safe_definition hev hstate hscope hexpr.2
      · exact safe_functionDefinition hstate hscope hexpr.2
      · exact safe_quotation hstate hexpr.2
      · exact safe_application hev hstate hscope hexpr.1 hexpr.2
  | _ => exact .stop hstate hexpr

end

/-- Evaluation is safe, with any amount of fuel. -/
theorem safe_eval (config : Config) (fuel : Nat) : SafeEvaluator (eval config fuel) := by
  induction fuel with
  | zero => exact ⟨fun hstate _ _ => .stop hstate trivial, (effect_calls config).eval 0⟩
  | succ fuel ih =>
      refine ⟨?_, (effect_calls config).eval (fuel + 1)⟩
      intro expr scope state hstate hscope hexpr
      rw [eval]
      split_ifs
      · exact ⟨Outcome.sound_fail _ _, hstate, Nat.le_refl _⟩
      · have hresult : Safe state.enter
            (expression (eval config fuel) config expr scope state.enter) :=
          safe_expression ih hstate hscope hexpr
        exact ⟨hresult.outcome, hresult.state, hresult.size⟩

end Eval

namespace Interpreter

/-- The global environment of a new interpreter binds primitives. -/
theorem mem_builtinEnv {binding : Binding} (hmem : binding ∈ builtinEnv.bindings) :
    ∃ primitive ∈ Primitive.builtins, binding.value = .primitive primitive := by
  have hall : ∀ (primitives : List Primitive) (env : Env),
      binding ∈ (primitives.foldl (fun env primitive =>
        env.define (.intern primitive.name) (.primitive primitive)) env).bindings →
      (∃ primitive ∈ primitives, binding.value = .primitive primitive) ∨
        binding ∈ env.bindings := by
    intro primitives
    induction primitives with
    | nil => exact fun env hmem => .inr hmem
    | cons primitive primitives ih =>
        intro env hmem
        rcases ih _ hmem with ⟨later, hlater, hvalue⟩ | hmem
        · exact .inl ⟨later, List.mem_cons_of_mem _ hlater, hvalue⟩
        · rcases Env.mem_bindings_define hmem with rfl | hmem
          · exact .inl ⟨primitive, List.mem_cons_self, rfl⟩
          · exact .inr hmem
  rcases hall _ _ hmem with hprimitive | hnone
  · exact hprimitive
  · exact absurd hnone List.not_mem_nil

/-- A new interpreter has one environment. -/
theorem envs_new {settings : List Setting} {it : Interpreter}
    (hnew : new settings = .ok it) : it.state.envs = #[builtinEnv] := by
  cases hchosen : settings.foldlM choose blank with
  | error failure =>
      rw [new, hchosen] at hnew
      cases hnew
  | ok chosen =>
      rw [new, hchosen] at hnew
      cases hnew
      rfl

/-- A new interpreter is sound. -/
theorem sound_new {settings : List Setting} {it : Interpreter}
    (hnew : new settings = .ok it) : it.state.Sound := by
  refine State.Holds.single (P := Value.Sound) (envs_new hnew) ?_
  intro binding hmem
  obtain ⟨primitive, hbuiltin, hvalue⟩ := mem_builtinEnv hmem
  rw [hvalue]
  exact Primitive.sound_builtins primitive hbuiltin

end Interpreter

end MiniLisp
