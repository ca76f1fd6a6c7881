import MiniLisp.Eval

/-!
Calling a closure.  The parameters of a closure take arguments if they are a proper list
of symbols that can be bound, and if there is an argument for each of them and no other,
unless surplus arguments are ignored.  The call then goes on with the body, in a new
environment that holds the arguments on top of what the environment of the closure holds.
Every other call fails before anything is evaluated.
-/

namespace MiniLisp

/-! ### Many definitions -/

namespace Env

def defineAll (env : Env) (entries : List (Symbol × Value)) : Env :=
  entries.foldl (fun env entry => env.define entry.1 entry.2) env

/-- The definitions of other symbols leave a symbol its value. -/
theorem binding?_defineAll_of_not_mem {entries : List (Symbol × Value)} {symbol : Symbol}
    (env : Env) (hsymbol : symbol ∉ entries.map Prod.fst) :
    (env.defineAll entries).binding? symbol = env.binding? symbol := by
  induction entries generalizing env with
  | nil => rfl
  | cons entry entries ih =>
      rw [List.map_cons, List.mem_cons, not_or] at hsymbol
      calc ((env.define entry.1 entry.2).defineAll entries).binding? symbol
          = (env.define entry.1 entry.2).binding? symbol := ih _ hsymbol.2
        _ = env.binding? symbol := binding?_define_of_ne env hsymbol.1 entry.2

/-- The last definition of a symbol gives it its value. -/
theorem binding?_defineAll_of_last {before after : List (Symbol × Value)} {symbol : Symbol}
    (env : Env) (value : Value) (hlast : symbol ∉ after.map Prod.fst) :
    (env.defineAll (before ++ (symbol, value) :: after)).binding? symbol = some value := by
  rw [defineAll, List.foldl_append, List.foldl_cons, ← defineAll, ← defineAll,
    binding?_defineAll_of_not_mem _ hlast, binding?_define_self]

end Env

namespace Eval

/-! ### Parameters and arguments -/

/-- The parameters are the bindable symbols `names`, the arguments start with the values
`given`, one for each name, and what follows those is the empty list or ignored. -/
structure Accepts (config : Config) (parameters arguments : Value) (names : List Symbol)
    (given : List Value) (surplus : Value) : Prop where
  parameters_eq : parameters = .ofList (names.map .symbol)
  bindable : ∀ name ∈ names, name.isConstant = false
  arguments_eq : arguments = .ofSpine given surplus
  length_eq : given.length = names.length
  settled : surplus = .empty ∨ config.surplus = true

/-- The environment of a body: every name has the value given at the last place where it
stands, and every other symbol what it had before. -/
structure Binds (env : Env) (names : List Symbol) (given : List Value) (locals : Env) :
    Prop where
  last (place : Nat) (name : Symbol) (hname : names[place]? = some name)
    (hlast : ∀ later, place < later → names[later]? ≠ some name) :
    ∃ value, given[place]? = some value ∧ locals.binding? name = some value
  other (symbol : Symbol) (hsymbol : symbol ∉ names) :
    locals.binding? symbol = env.binding? symbol

variable {config : Config} {callee : Symbol} {all parameters arguments surplus : Value}
  {names : List Symbol} {given : List Value} {env locals : Env}

theorem Accepts.nil (hsettled : surplus = .empty ∨ config.surplus = true) :
    Accepts config .empty surplus [] [] surplus where
  parameters_eq := rfl
  bindable := by simp
  arguments_eq := rfl
  length_eq := rfl
  settled := hsettled

theorem Accepts.cons {name : Symbol} (value : Value) (hname : name.isConstant = false)
    (haccepts : Accepts config parameters arguments names given surplus) :
    Accepts config (.pair (.symbol name) parameters) (.pair value arguments) (name :: names)
      (value :: given) surplus where
  parameters_eq := by rw [haccepts.parameters_eq]; rfl
  bindable := by simpa [hname] using haccepts.bindable
  arguments_eq := by rw [haccepts.arguments_eq]; rfl
  length_eq := by simpa using haccepts.length_eq
  settled := haccepts.settled

/-- Parameters that take the arguments are bound to them in order. -/
theorem bind_of_accepts (haccepts : Accepts config parameters arguments names given surplus)
    (env : Env) :
    bind config callee all parameters arguments env = .ok (env.defineAll (names.zip given)) := by
  obtain ⟨rfl, hbindable, rfl, hlength, hsettled⟩ := haccepts
  induction names generalizing given env with
  | nil =>
      obtain rfl := List.eq_nil_of_length_eq_zero hlength
      rcases hsettled with rfl | hignored
      · rfl
      · simp [bind, Value.ofList, Value.ofSpine, Value.empty, Value.isEmpty, hignored,
          Env.defineAll]
  | cons name names ih =>
      obtain ⟨value, given, rfl⟩ := List.exists_cons_of_length_eq_add_one hlength
      have hname : name.isConstant = false := hbindable name (by simp)
      have hnames : ∀ name ∈ names, name.isConstant = false := fun name hmem =>
        hbindable name (by simp [hmem])
      have hrest := ih (env.define name value) hnames (by simpa using hlength)
      simpa [bind, Value.ofList, Value.ofSpine, hname, Env.defineAll] using hrest

/-- The arguments cannot be bound to the parameters, and that is a type error or an
arity error. -/
def Mismatch (config : Config) (callee : Symbol) (all parameters arguments : Value)
    (env : Env) : Prop :=
  ∃ reason, (reason.condition = .type ∨ reason.condition = .arity) ∧
    bind config callee all parameters arguments env = .error reason

/-- Behind the last of the parameters there may only be the empty list, and behind the last
argument too unless the surplus is ignored. -/
theorem accepts_or_mismatch_ending (callee : Symbol) (all : Value) {ending : Value}
    (hending : ∀ parameter parameters, ending ≠ .pair parameter parameters)
    (arguments : Value) (env : Env) :
    Accepts config ending arguments [] [] arguments ∨
      Mismatch config callee all ending arguments env := by
  have hbind : bind config callee all ending arguments env =
      if !ending.isEmpty then .error (.parametersNotList callee all)
      else if !arguments.isEmpty && !config.surplus then .error (.surplusArguments callee)
      else .ok env := by
    cases ending with
    | pair parameter parameters => exact absurd rfl (hending parameter parameters)
    | _ => rfl
  by_cases hempty : ending.isEmpty = true
  · obtain rfl := Value.isEmpty_iff.mp hempty
    by_cases hsettled : arguments = .empty ∨ config.surplus = true
    · exact .inl (.nil hsettled)
    · rw [not_or, ← Value.isEmpty_iff] at hsettled
      exact .inr ⟨.surplusArguments callee, .inr rfl, by simp [hbind, hempty, hsettled]⟩
  · exact .inr ⟨.parametersNotList callee all, .inl rfl, by simp [hbind, hempty]⟩

/-- Either the parameters take the arguments, or the two do not match. -/
theorem bind_cases (config : Config) (callee : Symbol) (all parameters arguments : Value)
    (env : Env) :
    (∃ names given surplus, Accepts config parameters arguments names given surplus) ∨
      Mismatch config callee all parameters arguments env := by
  induction parameters generalizing arguments env with
  | pair parameter parameters _ ih =>
      cases parameter with
      | symbol name =>
          by_cases hname : name.isConstant = true
          · exact .inr ⟨.constantParameter callee name, .inl rfl, by simp [bind, hname]⟩
          · cases arguments with
            | pair value arguments =>
                rcases ih arguments (env.define name value) with
                  ⟨names, given, surplus, haccepts⟩ | ⟨reason, hreason, hrefused⟩
                · exact .inl ⟨_, _, _, haccepts.cons value (by simpa using hname)⟩
                · exact .inr ⟨reason, hreason, by simp [bind, hname, hrefused]⟩
            | _ => exact .inr ⟨.missingArguments callee, .inr rfl, by simp [bind, hname]⟩
      | _ => exact .inr ⟨_, .inl rfl, rfl⟩
  | _ =>
      refine (accepts_or_mismatch_ending callee all ?_ arguments env).imp_left
        fun haccepts => ⟨_, _, _, haccepts⟩
      exact fun _ _ hpair => nomatch hpair

/-- Names that are bound in order hold the latest of their values. -/
theorem binds_defineAll (env : Env) (hlength : given.length = names.length) :
    Binds env names given (env.defineAll (names.zip given)) := by
  have hfst : (names.zip given).map Prod.fst = names := List.map_fst_zip (by omega)
  constructor
  · intro place name hname hlast
    obtain ⟨hplace, rfl⟩ := List.getElem?_eq_some_iff.mp hname
    have hgiven : place < given.length := by omega
    refine ⟨given[place], List.getElem?_eq_getElem hgiven, ?_⟩
    have hzip : place < (names.zip given).length := by
      rw [List.length_zip]
      omega
    have hsplit : names.zip given = (names.zip given).take place ++
        (names[place], given[place]) :: (names.zip given).drop (place + 1) := by
      rw [← List.getElem_zip (h := hzip), List.getElem_cons_drop, List.take_append_drop]
    rw [hsplit]
    apply Env.binding?_defineAll_of_last
    intro hmem
    rw [List.map_drop, hfst, List.mem_drop_iff_getElem] at hmem
    obtain ⟨later, hlater, heq⟩ := hmem
    refine hlast (place + 1 + later) (by omega) ?_
    rw [List.getElem?_eq_getElem (by omega), heq]
  · intro symbol hsymbol
    exact Env.binding?_defineAll_of_not_mem env (by rwa [hfst])

/-! ### The call -/

/-- A call goes on with the expressions of a body, in a new environment `locals` and with
everything else as it was. -/
def EntersBody (config : Config) (function expressions arguments : Value) (state : State)
    (locals : Env) : Prop :=
  ∀ ev : Evaluator, call ev config function arguments state =
    body ev state.envs.size expressions .empty { state with envs := state.envs.push locals }

/-- A call fails for a reason.  It evaluates nothing: the state stays as it is, whatever an
evaluation would do. -/
def Refuses (config : Config) (function arguments : Value) (state : State)
    (reason : Reason) : Prop :=
  ∀ ev : Evaluator, call ev config function arguments state = (.fail reason, state)

/-- A body fails only if an evaluation does. -/
theorem body_crashing_ne_fail (scope : Nat) (expressions last : Value) (state : State)
    (reason : Reason) :
    (body (fun _ _ state => (.crashed, state)) scope expressions last state).1 ≠
      .fail reason := by
  cases expressions <;> simp [body, Outcome.fail]

theorem EntersBody.not_refuses {function expressions : Value} {state : State}
    (henters : EntersBody config function expressions arguments state locals)
    (reason : Reason) : ¬Refuses config function arguments state reason := by
  intro hrefuses
  have heq := (henters fun _ _ state => (.crashed, state)).symm.trans (hrefuses _)
  exact body_crashing_ne_fail _ _ _ _ reason (congrArg Prod.fst heq)

variable {expressions : Value} {scope : Nat} {state : State}

theorem call_closure (henv : state.envs[scope]? = some env) (ev : Evaluator) :
    call ev config (.closure callee parameters expressions (some scope)) arguments state =
      match bind config callee parameters parameters arguments env with
      | .error reason => (.fail reason, state)
      | .ok locals => body ev state.envs.size expressions .empty
          { state with envs := state.envs.push locals } := by
  rw [call, callClosure]
  simp only [Option.bind_some, henv]
  rfl

theorem entersBody_of_accepts (henv : state.envs[scope]? = some env)
    (haccepts : Accepts config parameters arguments names given surplus) :
    EntersBody config (.closure callee parameters expressions (some scope)) expressions
      arguments state (env.defineAll (names.zip given)) := by
  intro ev
  rw [call_closure henv, bind_of_accepts haccepts]

theorem refuses_of_error {reason : Reason} (henv : state.envs[scope]? = some env)
    (herror : bind config callee parameters parameters arguments env = .error reason) :
    Refuses config (.closure callee parameters expressions (some scope)) arguments state
      reason := by
  intro ev
  rw [call_closure henv, herror]

/-- The call of a closure binds its parameters and nothing else.  It goes on with the body
exactly if the parameters take the arguments: in a new environment, in which each parameter
has the argument at the last place where it stands among the parameters, and every other
symbol what it has in the environment of the closure.  Else the call fails with a type error
or an arity error, and the state stays as it is. -/
theorem closure_call_binds_parameters (config : Config) (callee : Symbol)
    (parameters expressions arguments : Value) {scope : Nat} {env : Env} {state : State}
    (henv : state.envs[scope]? = some env) :
    let function := Value.closure callee parameters expressions (some scope)
    ((∃ locals, EntersBody config function expressions arguments state locals) ↔
        ∃ names given surplus, Accepts config parameters arguments names given surplus) ∧
      (∀ names given surplus, Accepts config parameters arguments names given surplus →
        ∃ locals, EntersBody config function expressions arguments state locals ∧
          Binds env names given locals) ∧
      ((¬∃ names given surplus, Accepts config parameters arguments names given surplus) →
        ∃ reason, (reason.condition = .type ∨ reason.condition = .arity) ∧
          Refuses config function arguments state reason) := by
  intro function
  refine ⟨⟨?_, ?_⟩, ?_, ?_⟩
  · rintro ⟨locals, henters⟩
    rcases bind_cases config callee parameters parameters arguments env with
      haccepts | ⟨reason, _, herror⟩
    · exact haccepts
    · exact absurd (refuses_of_error henv herror) (henters.not_refuses reason)
  · rintro ⟨names, given, surplus, haccepts⟩
    exact ⟨_, entersBody_of_accepts henv haccepts⟩
  · intro names given surplus haccepts
    exact ⟨_, entersBody_of_accepts henv haccepts, binds_defineAll env haccepts.length_eq⟩
  · intro hnone
    rcases bind_cases config callee parameters parameters arguments env with
      haccepts | ⟨reason, hcondition, herror⟩
    · exact absurd haccepts hnone
    · exact ⟨reason, hcondition, refuses_of_error henv herror⟩

/-- A function whose first parameter comes back behind another one. -/
def repeatingFunction : Value :=
  let first := Value.symbol (.intern (utf8 "x"))
  let second := Value.symbol (.intern (utf8 "y"))
  .closure (.intern (utf8 "f")) (.ofList [first, second, first]) (.ofList [first])
    (some State.globalScope)

/-- An environment that binds one of the parameters and one other symbol. -/
def repeatingScope : Env :=
  (Env.empty.define (.intern (utf8 "x")) (.int 7)).define (.intern (utf8 "z")) (.int 8)

def repeatingState : State :=
  ⟨#[repeatingScope], 0, [], .unlimited, []⟩

/-- A parameter that stands twice has the later of its two arguments, whatever the closure's
environment has for it. -/
theorem closure_call_binds_parameters_repeated :
    ∃ locals,
      EntersBody ⟨0, false⟩ repeatingFunction (.ofList [.symbol (.intern (utf8 "x"))])
          (.ofList [.int 1, .int 2, .int 3]) repeatingState locals ∧
        locals.binding? (.intern (utf8 "x")) = some (.int 3) ∧
        locals.binding? (.intern (utf8 "z")) = some (.int 8) := by
  have hscope : repeatingState.envs[State.globalScope]? = some repeatingScope := rfl
  obtain ⟨locals, henters, hbinds⟩ :=
    (closure_call_binds_parameters ⟨0, false⟩ _ _ _ _ hscope).2.1
      [.intern (utf8 "x"), .intern (utf8 "y"), .intern (utf8 "x")] [.int 1, .int 2, .int 3]
      .empty ⟨rfl, by decide +kernel, rfl, rfl, .inl rfl⟩
  refine ⟨locals, henters, ?_, ?_⟩
  · obtain ⟨value, hvalue, hbound⟩ := hbinds.last 2 _ rfl fun later hlater => by
      have hbeyond : 3 ≤ later := hlater
      simp [hbeyond]
    cases hvalue
    exact hbound
  · rw [hbinds.other _ (by decide +kernel)]
    decide +kernel

end Eval

end MiniLisp
