import Mathlib.Tactic.SplitIfs
import MiniLisp.Interpreter

/-!
What an evaluation can do.  Every form of the language is put together from a few
steps: it stops, goes on with a value, binds a symbol, calls a primitive or works in a
new environment.  A relation between the state before and the result that these steps
keep is kept by every evaluation.
-/

namespace MiniLisp

namespace State

@[simp]
theorem enter_depth (state : State) : state.enter.depth = state.depth + 1 := rfl

@[simp]
theorem leave_depth (state : State) : state.leave.depth = state.depth - 1 := rfl

end State

namespace Eval

/-- The end of an application changes nothing but the functions being applied. -/
theorem finish_state (result : Outcome × State) :
    (finish result).2.envs = result.2.envs ∧ (finish result).2.out = result.2.out ∧
      (finish result).2.depth = result.2.depth := by
  obtain ⟨outcome, state⟩ := result
  obtain ⟨envs, depth, calls, out, log⟩ := state
  cases outcome <;> cases calls <;> exact ⟨rfl, rfl, rfl⟩

theorem finish_of_ne_crashed {outcome : Outcome} {state : State} {frame : Frame}
    {below : CallStack} (houtcome : outcome ≠ .crashed)
    (hcalls : state.calls = frame :: below) :
    finish (outcome, state) =
      (outcome.attachStack (frame :: below), { state with calls := below }) := by
  cases outcome with
  | crashed => exact absurd rfl houtcome
  | value value => simp [finish, State.popCall?, hcalls]
  | failed failure => simp [finish, State.popCall?, hcalls]
  | exhausted => simp [finish, State.popCall?, hcalls]

/-- A relation between the state before and the result of an evaluation in the
environment `scope`, which holds of every step of an evaluation. -/
structure Effect (config : Config) (R : Nat → State → Outcome × State → Prop) : Prop where
  stop {scope : Nat} {state : State} {outcome : Outcome} (houtcome : outcome ≠ .exhausted) :
    R scope state (outcome, state)
  next {scope : Nat} {state middle : State} {value : Value} {result : Outcome × State}
    (hfirst : R scope state (.value value, middle)) (hrest : R scope middle result) :
    R scope state result
  define {scope : Nat} {state : State} {name : Symbol} (value answer : Value)
    (hname : name.isConstant = false) :
    R scope state (.value answer, state.define scope name value)
  primitive (scope : Nat) (state : State) (primitive : Primitive) (arguments : Value) :
    R scope state ((primitive.call arguments state.out).1,
      state.withOut (primitive.call arguments state.out).2)
  closure {scope captured : Nat} {state : State} {env bound : Env} {name : Symbol}
    {parameters arguments : Value} {result : Outcome × State}
    (henv : state.envs[captured]? = some env)
    (hbind : bind config name parameters parameters arguments env = .ok bound)
    (hbody : R state.envs.size (state.addEnv bound).2 result) : R scope state result
  finish {scope : Nat} {state : State} {frame : Frame} {result : Outcome × State}
    (hcall : R scope (state.pushCall frame) result) : R scope state (finish result)

namespace Effect

variable {config : Config} {R : Nat → State → Outcome × State → Prop} {ev : Evaluator}

theorem value (heffect : Effect config R) {scope : Nat} {state : State} (value : Value) :
    R scope state (.value value, state) :=
  heffect.stop (by simp)

theorem crashed (heffect : Effect config R) {scope : Nat} {state : State} :
    R scope state (.crashed, state) :=
  heffect.stop (by simp)

theorem fail (heffect : Effect config R) {scope : Nat} {state : State} (reason : Reason) :
    R scope state (.fail reason, state) :=
  heffect.stop (by simp [Outcome.fail])

theorem after (heffect : Effect config R) {scope : Nat} {state middle : State}
    {value : Value} {first result : Outcome × State} (hfirst : R scope state first)
    (hvalue : first = (.value value, middle)) (hrest : R scope middle result) :
    R scope state result :=
  heffect.next (hvalue ▸ hfirst) hrest

theorem arguments (heffect : Effect config R)
    (hev : ∀ expr scope state, R scope state (ev expr scope state))
    (scope : Nat) (all rest : Value) (found : List Value) (state : State) :
    R scope state (arguments ev scope all rest found state) := by
  fun_induction Eval.arguments ev scope all rest found state with
  | case1 head tail found state value middle hhead ih =>
      exact heffect.after (hev head scope state) hhead ih
  | case2 head tail found state hhead => exact hev head scope state
  | case3 ending found state hending hempty => exact heffect.value _
  | case4 ending found state hending hempty => exact heffect.fail _

theorem body (heffect : Effect config R)
    (hev : ∀ expr scope state, R scope state (ev expr scope state))
    (scope : Nat) (rest last : Value) (state : State) :
    R scope state (body ev scope rest last state) := by
  fun_induction Eval.body ev scope rest last state with
  | case1 last head tail state value middle hhead ih =>
      exact heffect.after (hev head scope state) hhead ih
  | case2 last head tail state hhead => exact hev head scope state
  | case3 ending last state hending => exact heffect.value _

theorem call (heffect : Effect config R)
    (hev : ∀ expr scope state, R scope state (ev expr scope state))
    (scope : Nat) (function arguments : Value) (state : State) :
    R scope state (call ev config function arguments state) := by
  unfold Eval.call
  split
  · exact heffect.primitive scope state _ arguments
  · next name parameters expressions captured =>
      unfold callClosure
      split
      · exact heffect.crashed
      · next env henv =>
          split
          · exact heffect.fail _
          · next bound hbind =>
              rw [Option.bind_eq_some_iff] at henv
              obtain ⟨number, _, henv⟩ := henv
              exact heffect.closure henv hbind (heffect.body hev _ _ _ _)
  · exact heffect.crashed

/-- An application has the same effect on every environment: it never works in one that
was there before. -/
theorem apply (heffect : Effect config R)
    (hev : ∀ expr scope state, R scope state (ev expr scope state))
    (scope : Nat) (function arguments : Value) (state : State) :
    R scope state (apply ev config function arguments state) := by
  unfold Eval.apply
  split
  · exact heffect.fail _
  · exact heffect.finish (heffect.call hev scope function arguments _)

theorem application (heffect : Effect config R)
    (hev : ∀ expr scope state, R scope state (ev expr scope state))
    (head tail : Value) (scope : Nat) (state : State) :
    R scope state (application ev config head tail scope state) := by
  fun_cases Eval.application ev config head tail scope state with
  | case1 function middle hhead hframe =>
      exact heffect.after (hev head scope state) hhead (heffect.fail _)
  | case2 function middle hhead hframe values last harguments =>
      refine heffect.after (hev head scope state) hhead ?_
      exact heffect.after (heffect.arguments hev scope tail tail [] middle) harguments
        (heffect.apply hev scope function values last)
  | case3 function middle hhead hframe harguments =>
      exact heffect.after (hev head scope state) hhead
        (heffect.arguments hev scope tail tail [] middle)
  | case4 hhead => exact hev head scope state

theorem conditional (heffect : Effect config R)
    (hev : ∀ expr scope state, R scope state (ev expr scope state))
    (tail : Value) (scope : Nat) (state : State) :
    R scope state (conditional ev tail scope state) := by
  fun_cases Eval.conditional ev tail scope state with
  | case1 reason hitems => exact heffect.fail reason
  | case2 test yes rest hitems value middle htest htrue =>
      exact heffect.after (hev test scope state) htest (hev yes scope middle)
  | case3 test yes value middle htest htrue hitems =>
      exact heffect.after (hev test scope state) htest (heffect.value _)
  | case4 test yes value middle htest htrue no rest hitems =>
      exact heffect.after (hev test scope state) htest (hev no scope middle)
  | case5 test yes rest hitems htest => exact hev test scope state
  | case6 items hshort hitems => exact heffect.crashed

theorem isConstant_of_definedName {form name : Symbol} {target : Value}
    (hname : definedName form target = .ok name) : name.isConstant = false := by
  cases target with
  | symbol symbol =>
      rw [definedName] at hname
      by_cases hconstant : symbol.isConstant = true
      · simp [hconstant] at hname
      · simp only [hconstant, Bool.false_eq_true, ↓reduceIte, Except.ok.injEq] at hname
        simpa [hname] using hconstant
  | _ => simp [definedName] at hname

theorem definition (heffect : Effect config R)
    (hev : ∀ expr scope state, R scope state (ev expr scope state))
    (tail : Value) (scope : Nat) (state : State) :
    R scope state (definition ev tail scope state) := by
  fun_cases Eval.definition ev tail scope state with
  | case1 reason hitems => exact heffect.fail reason
  | case2 target expr rest hitems reason hname => exact heffect.fail reason
  | case3 target expr rest hitems name hname value middle hexpr =>
      exact heffect.after (hev expr scope state) hexpr
        (heffect.define value value (isConstant_of_definedName hname))
  | case4 target expr rest hitems name hname hexpr => exact hev expr scope state
  | case5 items hshort hitems => exact heffect.crashed

theorem functionDefinition (heffect : Effect config R)
    (tail : Value) (scope : Nat) (state : State) :
    R scope state (functionDefinition tail scope state) := by
  fun_cases Eval.functionDefinition tail scope state with
  | case1 reason hitems => exact heffect.fail reason
  | case2 target parameters rest hitems reason hname => exact heffect.fail reason
  | case3 target parameters rest hitems name hname closure =>
      exact heffect.define closure _ (isConstant_of_definedName hname)
  | case4 items hshort hitems => exact heffect.crashed

theorem quotation (heffect : Effect config R) (tail : Value) (scope : Nat)
    (state : State) : R scope state (quotation tail state) := by
  fun_cases Eval.quotation tail state with
  | case1 reason hitems => exact heffect.fail reason
  | case2 value rest hitems => exact heffect.value value
  | case3 items hshort hitems => exact heffect.crashed

theorem symbol (heffect : Effect config R) (name : Symbol) (scope : Nat) (state : State) :
    R scope state (symbol name scope state, state) := by
  apply heffect.stop
  unfold Eval.symbol
  split
  · simp
  · split <;> simp [Outcome.fail]

/-- What holds of the evaluation of parts holds of the evaluation of the whole. -/
theorem expression (heffect : Effect config R)
    (hev : ∀ expr scope state, R scope state (ev expr scope state))
    (expr : Value) (scope : Nat) (state : State) :
    R scope state (expression ev config expr scope state) := by
  unfold Eval.expression
  split
  · exact heffect.symbol _ scope state
  · next head tail =>
      unfold Eval.pair
      split_ifs
      · exact heffect.conditional hev tail scope state
      · exact heffect.definition hev tail scope state
      · exact heffect.functionDefinition tail scope state
      · exact heffect.quotation tail scope state
      · exact heffect.application hev head tail scope state
  · exact heffect.value _

end Effect

/-- An effect that nested evaluations keep: counting the depth, reporting that it is
beyond the limit, and giving up for want of fuel. -/
structure NestedEffect (config : Config) (R : Nat → State → Outcome × State → Prop) : Prop
    extends Effect config R where
  exhausted (scope : Nat) (state : State) : R scope state (.exhausted, state)
  note {scope : Nat} {state : State} (reason : Reason) (message : Bytes) :
    R scope state (.fail reason, state.note message)
  nested {scope : Nat} {state : State} {result : Outcome × State}
    (hresult : R scope state.enter result) : R scope state (result.1, result.2.leave)

theorem NestedEffect.eval {config : Config} {R : Nat → State → Outcome × State → Prop}
    (heffect : NestedEffect config R) (fuel : Nat) (expr : Value) (scope : Nat)
    (state : State) : R scope state (eval config fuel expr scope state) := by
  induction fuel generalizing expr scope state with
  | zero => exact heffect.exhausted scope state
  | succ fuel ih =>
      rw [MiniLisp.eval]
      split_ifs
      · exact heffect.nested (heffect.note _ _)
      · exact heffect.nested (heffect.expression ih expr scope state.enter)

end Eval

/-! ### Outcomes of primitives -/

namespace Operation

/-- What an operation can make of its arguments: a number or truth value, one of the arguments
or a part of one, a pair or list of them, or no value at all. -/
inductive Makes (arguments : List Value) : Outcome → Prop
  | int (n : Int64) : Makes arguments (.value (.int n))
  | bool (holds : Bool) : Makes arguments (.value (.ofBool holds))
  | item {value : Value} (hmem : value ∈ arguments) : Makes arguments (.value value)
  | head {head tail : Value} (hmem : .pair head tail ∈ arguments) :
      Makes arguments (.value head)
  | tail {head tail : Value} (hmem : .pair head tail ∈ arguments) :
      Makes arguments (.value tail)
  | pair {head tail : Value} (hhead : head ∈ arguments) (htail : tail ∈ arguments) :
      Makes arguments (.value (.pair head tail))
  | list : Makes arguments (.value (.ofList arguments))
  | fail (reason : Reason) : Makes arguments (.failed (.of reason))
  | unwritten (message : Bytes) : Makes arguments (.failed (.plain message))
  | crashed : Makes arguments .crashed

theorem makes_arithmetic {arguments : List Value} (callee : Bytes)
    {compute : List Int64 → Outcome} (hcompute : ∀ ns, Makes arguments (compute ns)) :
    Makes arguments (arithmetic callee arguments compute) := by
  rw [arithmetic]
  split
  · exact hcompute _
  · exact .fail _

theorem makes_answer (arguments : List Value) (result : Option Bool) :
    Makes arguments (answer result) := by
  cases result with
  | some holds => exact .bool holds
  | none => exact .crashed

theorem makes_compute (operation : Operation) (arguments : List Value) :
    Makes arguments (operation.compute arguments) := by
  cases operation with
  | add | multiply => exact makes_arithmetic _ fun _ => .int _
  | subtract =>
      apply makes_arithmetic
      intro ns
      split
      · exact .int _
      · exact .crashed
  | divide =>
      apply makes_arithmetic
      intro ns
      split
      · exact .int _
      · exact .fail _
      · exact .crashed
  | equal | less | greater => exact makes_arithmetic _ fun _ => .bool _
  | all | any => exact .bool _
  | list => exact .list
  | not | isNull =>
      cases arguments with
      | nil => exact .crashed
      | cons value rest => exact .bool _
  | first =>
      rcases arguments with _ | ⟨value, rest⟩
      · exact .crashed
      · cases value with
        | pair head tail => exact .head List.mem_cons_self
        | _ => exact .fail _
  | rest =>
      rcases arguments with _ | ⟨value, rest⟩
      · exact .crashed
      · cases value with
        | pair head tail => exact .tail List.mem_cons_self
        | _ => exact .fail _
  | cons =>
      rcases arguments with _ | ⟨head, _ | ⟨tail, rest⟩⟩
      · exact .crashed
      · exact .crashed
      · exact .pair (by simp) (by simp)
  | isList | isSymbol | isNumber =>
      cases arguments with
      | nil => exact .crashed
      | cons value rest => exact makes_answer _ _
  | print => exact .crashed

theorem makes_run (operation : Operation) (arguments : List Value) (out : Sink) :
    Makes arguments (operation.run arguments out).1 := by
  unfold run
  split
  · rw [printLine]
    split_ifs
    · exact .unwritten _
    · cases arguments with
      | nil => exact .list
      | cons value rest => exact .item List.mem_cons_self
  · exact makes_compute _ arguments

end Operation

/-- A primitive refuses its arguments, or makes its outcome of them. -/
theorem Primitive.call_cases (primitive : Primitive) (arguments : Value) (out : Sink) :
    (∃ reason, (primitive.call arguments out).1 = .fail reason) ∨
      ∃ items, checkedArguments primitive.name primitive.arity arguments = .ok items ∧
        Operation.Makes items (primitive.call arguments out).1 := by
  rw [call]
  split
  · next items hitems => exact .inr ⟨items, hitems, primitive.operation.makes_run items out⟩
  · next reason _ => exact .inl ⟨reason, rfl⟩

/-! ### Output -/

/-- What a sink has accepted stays accepted. -/
def Sink.Extends (before after : Sink) : Prop :=
  before.written <:+ after.written

namespace Sink.Extends

theorem refl (sink : Sink) : sink.Extends sink :=
  List.suffix_refl _

theorem trans {first second third : Sink} (hfirst : first.Extends second)
    (hsecond : second.Extends third) : first.Extends third :=
  List.IsSuffix.trans hfirst hsecond

/-- The text of a sink is the beginning of every later text. -/
theorem text_prefix {before after : Sink} (hextends : before.Extends after) :
    before.text <+: after.text := by
  obtain ⟨later, hlater⟩ := hextends
  refine ⟨later.reverse.flatten, ?_⟩
  simp [Sink.text, ← hlater]

end Sink.Extends

theorem Sink.extends_write (sink : Sink) (piece : Bytes) :
    sink.Extends (sink.write piece).2 := by
  rw [Sink.write]
  split
  · exact .refl sink
  · exact List.suffix_cons _ _
  · exact List.suffix_cons _ _

theorem Tally.extends_write (tally : Tally) (piece : Bytes) :
    tally.sink.Extends (tally.write piece).sink := by
  have hwrite := tally.sink.extends_write piece
  rw [Tally.write]
  split_ifs
  · exact .refl _
  · split
    · next sink hsink => rwa [hsink] at hwrite
    · next sink hsink => rwa [hsink] at hwrite

theorem Tally.extends_writeAll (tally : Tally) (pieces : List Bytes) :
    tally.sink.Extends (tally.writeAll pieces).sink := by
  induction pieces generalizing tally with
  | nil => exact .refl _
  | cons piece pieces ih => exact (tally.extends_write piece).trans (ih (tally.write piece))

theorem Operation.extends_run (operation : Operation) (arguments : List Value) (out : Sink) :
    out.Extends (operation.run arguments out).2 := by
  unfold run
  split
  · rw [printLine]
    split_ifs
    · exact Tally.extends_writeAll (Tally.on out) _
    · exact Tally.extends_writeAll (Tally.on out) _
  · exact .refl out

theorem Primitive.extends_call (primitive : Primitive) (arguments : Value) (out : Sink) :
    out.Extends (primitive.call arguments out).2 := by
  rw [call]
  split
  · exact Operation.extends_run _ _ out
  · exact .refl out

/-- Evaluation never takes output back. -/
theorem Eval.effect_out (config : Config) :
    NestedEffect config fun _ state result => state.out.Extends result.2.out where
  stop _ := .refl _
  next hfirst hrest := hfirst.trans hrest
  define _ _ _ := .refl _
  primitive _ state primitive arguments := primitive.extends_call arguments state.out
  closure _ _ hbody := hbody
  finish {_ _ _ result} hcall := by
    rw [(finish_state result).2.1]
    exact hcall
  exhausted _ _ := .refl _
  note _ _ := .refl _
  nested hresult := hresult

/-! ### Balance -/

namespace Eval

/-- Evaluation leaves the depth as it was. -/
theorem effect_depth (config : Config) :
    NestedEffect config fun _ state result => result.2.depth = state.depth where
  stop _ := rfl
  next hfirst hrest := hrest.trans hfirst
  define _ _ _ := rfl
  primitive _ _ _ _ := rfl
  closure _ _ hbody := hbody
  finish {_ _ _ result} hcall := by
    rw [(finish_state result).2.2]
    exact hcall
  exhausted _ _ := rfl
  note _ _ := rfl
  nested hresult := by
    rw [State.leave_depth, hresult, State.enter_depth, Nat.add_sub_cancel]

/-- Evaluation leaves the functions being applied as they were, unless it crashes. -/
theorem effect_calls (config : Config) :
    NestedEffect config fun _ state result =>
      result.1 ≠ .crashed → result.2.calls = state.calls where
  stop _ _ := rfl
  next hfirst hrest houtcome := (hrest houtcome).trans (hfirst (by simp))
  define _ _ _ _ := rfl
  primitive _ _ _ _ _ := rfl
  closure _ _ hbody := hbody
  finish {_ state frame result} hcall houtcome := by
    obtain ⟨outcome, after⟩ := result
    by_cases hcrashed : outcome = .crashed
    · rw [hcrashed] at houtcome
      exact absurd rfl houtcome
    · rw [finish_of_ne_crashed hcrashed (hcall hcrashed)]
  exhausted _ _ _ := rfl
  note _ _ _ := rfl
  nested hresult houtcome := hresult houtcome

end Eval

/-! ### Steps of an interpreter -/

namespace Interpreter

/-- One evaluation that is asked of an interpreter. -/
inductive Step (it : Interpreter) : Interpreter → Prop
  | eval (expr : Value) : Step it (it.eval expr).2
  | evalText (text : Bytes) : Step it (it.evalText text).2
  | load (name : Bytes) (source : Source) : Step it (it.load name source).2
  | apply (function arguments : Value) : Step it (it.apply function arguments).2
  | call (function arguments : Value) : Step it (it.call function arguments).2

/-- What holds of single evaluations and applications holds of every step. -/
theorem Step.lift {it after : Interpreter} (hstep : Step it after)
    (P : State → State → Prop) (hrefl : ∀ state, P state state)
    (htrans : ∀ {first second third}, P first second → P second third → P first third)
    (heval : ∀ config fuel expr state,
      P state (MiniLisp.eval config fuel expr State.globalScope state).2)
    (happly : ∀ config fuel function arguments state,
      P state (Eval.apply (MiniLisp.eval config fuel) config function arguments state).2)
    (hcall : ∀ config fuel function arguments state,
      P state (Eval.call (MiniLisp.eval config fuel) config function arguments state).2) :
    P it.state after.state := by
  have hall : ∀ exprs (it : Interpreter) last,
      P it.state (evalAll (fun it _ => it) it exprs last).2.state := by
    intro exprs
    induction exprs with
    | nil => exact fun it last => hrefl it.state
    | cons expr rest ih =>
        intro it last
        have hfirst : P it.state (it.eval expr).2.state := heval _ _ expr it.state
        rw [evalAll]
        split
        · next value after hvalue =>
            rw [hvalue] at hfirst
            exact htrans hfirst (ih after value)
        · exact hfirst
  cases hstep with
  | eval expr => exact heval _ _ expr it.state
  | evalText text =>
      rw [Interpreter.evalText]
      split
      · next expr hread => exact heval _ _ expr it.state
      · exact hrefl it.state
  | load name source =>
      rw [Interpreter.load]
      split
      · exact hrefl it.state
      · split
        · exact hall _ it .empty
        · exact hrefl it.state
  | apply function arguments => exact happly _ _ function arguments it.state
  | call function arguments => exact hcall _ _ function arguments it.state

end Interpreter

end MiniLisp
