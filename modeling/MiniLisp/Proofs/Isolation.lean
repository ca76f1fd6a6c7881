import Mathlib.Logic.Relation
import MiniLisp.Proofs.Evaluation

/-!
Isolation.  A call works in a copy of the environment that its function was defined in,
so an evaluation can change no other environment than its own, and an application can
change none at all.
-/

namespace MiniLisp

/-! ### Environments -/

namespace Env

/-- Binding a symbol unbinds none, and leaves the order of the others. -/
theorem symbols_define (env : Env) (symbol : Symbol) (value : Value) :
    env.symbols <+: (env.define symbol value).symbols := by
  cases hplace : env.place? symbol with
  | none => exact ⟨[symbol], (symbols_define_of_unbound hplace value).symm⟩
  | some place => exact ⟨[], by rw [List.append_nil, symbols_define_of_bound hplace]⟩

end Env

namespace State

/-- Every environment is the same as before. -/
def Untouched (before after : State) : Prop :=
  ∀ (number : Nat) (env : Env),
    before.envs[number]? = some env → after.envs[number]? = some env

/-- Every environment but the one with number `scope` is the same as before, and that one
still binds the same symbols in the same order, before any others. -/
structure Isolated (scope : Nat) (before after : State) : Prop where
  others (number : Nat) (env : Env) (hnumber : number ≠ scope)
    (henv : before.envs[number]? = some env) : after.envs[number]? = some env
  own (env : Env) (henv : before.envs[scope]? = some env) :
    ∃ env', after.envs[scope]? = some env' ∧ env.symbols <+: env'.symbols

theorem Untouched.isolated {before after : State} (huntouched : Untouched before after)
    (scope : Nat) : Isolated scope before after where
  others number env _ henv := huntouched number env henv
  own env henv := ⟨env, huntouched scope env henv, List.prefix_refl _⟩

namespace Isolated

theorem of_envs_eq {scope : Nat} {before after : State} (henvs : after.envs = before.envs) :
    Isolated scope before after :=
  Untouched.isolated (fun _ _ henv => henvs ▸ henv) scope

theorem trans {scope : Nat} {first second third : State}
    (hfirst : Isolated scope first second) (hsecond : Isolated scope second third) :
    Isolated scope first third where
  others number env hnumber henv :=
    hsecond.others number env hnumber (hfirst.others number env hnumber henv)
  own env henv := by
    obtain ⟨env', henv', hsymbols⟩ := hfirst.own env henv
    obtain ⟨env'', henv'', hsymbols'⟩ := hsecond.own env' henv'
    exact ⟨env'', henv'', hsymbols.trans hsymbols'⟩

theorem congr {scope : Nat} {before before' after after' : State}
    (hisolated : Isolated scope before after) (hbefore : before'.envs = before.envs)
    (hafter : after'.envs = after.envs) : Isolated scope before' after' :=
  ((of_envs_eq hbefore.symm).trans hisolated).trans (of_envs_eq hafter)

theorem define (scope : Nat) (state : State) (symbol : Symbol) (value : Value) :
    Isolated scope state (state.define scope symbol value) where
  others number env hnumber henv := by
    rw [State.define, Array.getElem?_modify, if_neg (Ne.symm hnumber)]
    exact henv
  own env henv := by
    refine ⟨env.define symbol value, ?_, env.symbols_define symbol value⟩
    rw [State.define, Array.getElem?_modify, if_pos rfl, henv]
    rfl

/-- Whatever works in an environment that did not exist touches none that did. -/
theorem untouched {state after : State}
    (hisolated : Isolated state.envs.size state after) : Untouched state after := by
  intro number env henv
  have hlt := (Array.getElem?_eq_some_iff.mp henv).1
  exact hisolated.others number env (by omega) henv

theorem addEnv (state : State) (env : Env) :
    Isolated state.envs.size state (state.addEnv env).2 := by
  refine Untouched.isolated (fun number old hold => ?_) _
  have hlt := (Array.getElem?_eq_some_iff.mp hold).1
  rw [State.addEnv, Array.getElem?_push, if_neg (by omega)]
  exact hold

end Isolated

end State

namespace Eval

open State (Isolated Untouched)

theorem effect_envs (config : Config) :
    NestedEffect config fun scope state result => Isolated scope state result.2 where
  stop _ := .of_envs_eq rfl
  next hfirst hrest := hfirst.trans hrest
  define value _ _ := .define _ _ _ value
  primitive _ _ _ _ := .of_envs_eq rfl
  closure _ _ hbody := ((Isolated.addEnv _ _).trans hbody).untouched.isolated _
  finish {_ _ _ result} hcall := hcall.congr rfl (finish_state result).1
  exhausted _ _ := .of_envs_eq rfl
  note _ _ := .of_envs_eq rfl
  nested hresult := hresult.congr rfl rfl

theorem isolated_eval (config : Config) (fuel : Nat) (expr : Value) (scope : Nat)
    (state : State) : Isolated scope state (eval config fuel expr scope state).2 :=
  (effect_envs config).eval fuel expr scope state

theorem untouched_call (config : Config) (fuel : Nat) (function arguments : Value)
    (state : State) :
    Untouched state (call (eval config fuel) config function arguments state).2 :=
  ((effect_envs config).call (isolated_eval config fuel) _ function arguments state).untouched

theorem untouched_apply (config : Config) (fuel : Nat) (function arguments : Value)
    (state : State) :
    Untouched state (apply (eval config fuel) config function arguments state).2 :=
  ((effect_envs config).apply (isolated_eval config fuel) _ function arguments state).untouched

end Eval

/-! ### Runs -/

namespace Interpreter

open State (Isolated Untouched)

/-- One step changes no environment but the global one. -/
theorem Step.isolated {it after : Interpreter} (hstep : Step it after) :
    Isolated State.globalScope it.state after.state := by
  apply hstep.lift (fun before after => Isolated State.globalScope before after)
  · exact fun state => .of_envs_eq rfl
  · exact fun hfirst hsecond => hfirst.trans hsecond
  · exact fun config fuel expr state => Eval.isolated_eval config fuel expr _ state
  · exact fun config fuel function arguments state =>
      (Eval.untouched_apply config fuel function arguments state).isolated _
  · exact fun config fuel function arguments state =>
      (Eval.untouched_call config fuel function arguments state).isolated _

/-- No run changes any environment but the global one. -/
theorem isolated_run {it after : Interpreter} (hrun : Relation.ReflTransGen Step it after) :
    Isolated State.globalScope it.state after.state := by
  induction hrun with
  | refl => exact .of_envs_eq rfl
  | tail _ hstep ih => exact ih.trans hstep.isolated

/-- Evaluation is isolated.  However it ends, an evaluation changes no environment but its
own, where it unbinds and reorders nothing; and an application changes none.  So a run
changes no environment but the global one, and what a finished step leaves behind, such as
the environment of a closure that it made, stays as it is. -/
theorem evaluation_isolated (config : Config) (fuel : Nat) :
    (∀ expr scope state,
        Isolated scope state (MiniLisp.eval config fuel expr scope state).2) ∧
      (∀ function arguments state,
        Untouched state
          (Eval.apply (MiniLisp.eval config fuel) config function arguments state).2) ∧
      (∀ it after, Relation.ReflTransGen Step it after →
        Isolated State.globalScope it.state after.state) ∧
      ∀ it finished after, 0 < it.state.envs.size → Step it finished →
        Relation.ReflTransGen Step finished after → ∀ (number : Nat) (env : Env),
          it.state.envs.size ≤ number → finished.state.envs[number]? = some env →
            after.state.envs[number]? = some env := by
  refine ⟨Eval.isolated_eval config fuel, Eval.untouched_apply config fuel, ?_, ?_⟩
  · intro it after hrun
    exact isolated_run hrun
  -- The global environment was there before the step, so a new one is another.
  · intro it finished after hglobal _ hrun number env hnumber henv
    have hother : number ≠ State.globalScope := by
      rw [State.globalScope]
      omega
    exact (isolated_run hrun).others number env hother henv

/-- A function that makes a function of no parameters, which gives what the first one was
applied to. -/
def constantMaker : Value :=
  let name := Value.symbol (.intern (utf8 "get"))
  let parameter := Value.symbol (.intern (utf8 "x"))
  .closure (.intern (utf8 "make")) (.ofList [parameter])
    (.ofList [.ofList [.symbol .defunForm, name, .empty, parameter], name])
    (some State.globalScope)

/-- The environment of a function made by a call stays as it is when the symbol that it
uses is bound again. -/
theorem evaluation_isolated_constant :
    ∃ env : Env,
      (blank.apply constantMaker (.ofList [.int 7])).2.state.envs[1]? = some env ∧
      ((blank.apply constantMaker (.ofList [.int 7])).2.eval
        (.ofList [.symbol .defineForm, .symbol (.intern (utf8 "x")), .int 9])).2.state.envs[1]? =
          some env := by
  have hsome : ((blank.apply constantMaker (.ofList [.int 7])).2.state.envs[1]?).isSome =
      true := by decide +kernel
  obtain ⟨env, henv⟩ := Option.isSome_iff_exists.mp hsome
  refine ⟨env, henv, ?_⟩
  exact (evaluation_isolated blank.config 1).2.2.2 blank _ _ (by decide) (.apply _ _)
    (.single (.eval _)) 1 env (by decide) henv

end Interpreter

end MiniLisp
