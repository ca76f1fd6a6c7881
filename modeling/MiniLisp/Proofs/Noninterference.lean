import MiniLisp.Proofs.Environments

/-!
Noninterference.  What a symbol is bound to cannot influence an evaluation whose code does
not mention the symbol.  All code that is ever evaluated is part of the expression or of a
function that occurs in it or in an environment: data may hold any symbol, but nothing
evaluates it.  So two evaluations that start in states which differ only in the bindings of
the symbol stay side by side until the end.
-/

namespace MiniLisp

/-! ### Code and data -/

namespace Value

/-- Code that never asks for a binding of `name`: it does not mention the symbol, unless
that is a constant, which stands for itself whatever it is bound to.  What a function is
called does not matter. -/
def Avoids (name : Symbol) : Value → Prop
  | .symbol other => other = name → name.isConstant = true
  | .pair head tail => head.Avoids name ∧ tail.Avoids name
  | .closure _ parameters body _ => parameters.Avoids name ∧ body.Avoids name
  | _ => True

/-- Data in which no function has code that asks for a binding of `name`. -/
def CodeAvoids (name : Symbol) : Value → Prop
  | .pair head tail => head.CodeAvoids name ∧ tail.CodeAvoids name
  | .closure _ parameters body _ => parameters.Avoids name ∧ body.Avoids name
  | _ => True

instance decidableAvoids (name : Symbol) : (value : Value) → Decidable (value.Avoids name)
  | .symbol other => inferInstanceAs (Decidable (other = name → name.isConstant = true))
  | .pair head tail =>
      have := decidableAvoids name head
      have := decidableAvoids name tail
      inferInstanceAs (Decidable (head.Avoids name ∧ tail.Avoids name))
  | .closure _ parameters body _ =>
      have := decidableAvoids name parameters
      have := decidableAvoids name body
      inferInstanceAs (Decidable (parameters.Avoids name ∧ body.Avoids name))
  | .int _ | .text _ | .primitive _ | .foreign _ _ | .absent => inferInstanceAs (Decidable True)

instance decidableCodeAvoids (name : Symbol) :
    (value : Value) → Decidable (value.CodeAvoids name)
  | .pair head tail =>
      have := decidableCodeAvoids name head
      have := decidableCodeAvoids name tail
      inferInstanceAs (Decidable (head.CodeAvoids name ∧ tail.CodeAvoids name))
  | .closure _ parameters body _ =>
      inferInstanceAs (Decidable (parameters.Avoids name ∧ body.Avoids name))
  | .symbol _ | .int _ | .text _ | .primitive _ | .foreign _ _ | .absent =>
      inferInstanceAs (Decidable True)

section

variable {name : Symbol}

/-- Code can be taken as data. -/
theorem Avoids.codeAvoids {value : Value} (havoids : value.Avoids name) :
    value.CodeAvoids name := by
  induction value with
  | pair head tail ihead itail => exact ⟨ihead havoids.1, itail havoids.2⟩
  | closure other parameters body scope => exact havoids
  | _ => trivial

theorem avoids_empty : empty.Avoids name := by
  intro hname
  rw [← hname]
  decide

theorem avoids_ofList {items : List Value} (hitems : ∀ item ∈ items, item.Avoids name) :
    (ofList items).Avoids name := by
  apply List.foldrRecOn items Value.pair avoids_empty
  intro rest hrest item hmem
  exact ⟨hitems item hmem, hrest⟩

theorem Avoids.checkedArguments {callee : Bytes} {arity : Arity} {arguments : Value}
    {items : List Value} (harguments : arguments.Avoids name)
    (hitems : checkedArguments callee arity arguments = .ok items) :
    ∀ item ∈ items, item.Avoids name :=
  forall_mem_toList? (fun hpair => hpair) harguments (checkedArguments_eq_ok hitems).1

-- Where there are no environments nothing can be made a function, so there the values of a
-- computation inherit what the functions among its arguments have.
theorem inherited_codeAvoids :
    Inherited fun scopes value => scopes = 0 → value.CodeAvoids name where
  mono hvalue hle := by
    rintro rfl
    exact hvalue (Nat.le_zero.mp hle)
  symbol _ _ _ := trivial
  int _ _ _ := trivial
  text _ _ _ := trivial
  pair := forall_and
  closure := by
    intro scopes scope _ _ _ _ _ hscope hscopes
    omega
  body hclosure hscopes := (hclosure hscopes).2.codeAvoids

theorem codeAvoids_ofList {items : List Value}
    (hitems : ∀ item ∈ items, item.CodeAvoids name) : (ofList items).CodeAvoids name :=
  inherited_codeAvoids.ofList (fun item hmem _ => hitems item hmem) rfl

theorem CodeAvoids.primitive {primitive : Primitive} {arguments value : Value} {out : Sink}
    (harguments : arguments.CodeAvoids name)
    (hvalue : (primitive.call arguments out).1 = .value value) : value.CodeAvoids name :=
  inherited_codeAvoids.call (fun _ => harguments) hvalue rfl

end

end Value

/-- Code that avoids a symbol defines other symbols only. -/
theorem Eval.ne_of_definedName {form name other : Symbol} {target : Value}
    (htarget : target.Avoids name) (hother : definedName form target = .ok other) :
    other ≠ name := by
  have hconstant := Effect.isConstant_of_definedName hother
  cases target with
  | symbol symbol =>
      rw [definedName] at hother
      split_ifs at hother
      cases hother
      rintro rfl
      rw [htarget rfl] at hconstant
      cases hconstant
  | _ => simp [definedName] at hother

/-! ### All bindings but those of one symbol -/

namespace Env

def bindingsBut (env : Env) (name : Symbol) : List Binding :=
  env.bindings.filter (·.symbol ≠ name)

/-- Bind a symbol among bindings: in its place, or else behind them. -/
def rebind (bindings : List Binding) (symbol : Symbol) (value : Value) : List Binding :=
  if symbol ∈ bindings.map Binding.symbol then
    bindings.map fun binding => if binding.symbol = symbol then ⟨symbol, value⟩ else binding
  else bindings ++ [⟨symbol, value⟩]

theorem bindings_define (env : Env) (symbol : Symbol) (value : Value) :
    (env.define symbol value).bindings = rebind env.bindings symbol value := by
  rw [rebind]
  by_cases hbound : symbol ∈ env.bindings.map Binding.symbol
  · obtain ⟨place, hplace⟩ := mem_symbols_iff.mp hbound
    rw [if_pos hbound, bindings, pairs_define_of_bound hplace]
    apply List.ext_getElem?
    intro other
    rw [Array.getElem?_toList, Array.getElem?_modify, List.getElem?_map, bindings,
      Array.getElem?_toList]
    -- The binding in the place of the symbol is the only one of it.
    cases hother : env.pairs[other]? with
    | none => simp
    | some binding =>
        have hsymbol : binding.symbol = symbol ↔ place = other := by
          constructor
          · intro hsame
            have hthere : env.place? symbol = some other := by
              rw [place?_eq_some, hother, ← hsame]
              rfl
            exact Option.some.inj (hplace.symm.trans hthere)
          · rintro rfl
            have hthere := place?_eq_some.mp hplace
            rw [hother] at hthere
            exact Option.some.inj hthere
        by_cases hsame : place = other
        · have hbinding := hsymbol.mpr hsame
          simp [hsame, hbinding]
        · have hbinding := mt hsymbol.mp hsame
          simp [hsame, hbinding]
  · have hplace : env.place? symbol = none := by
      rw [Option.eq_none_iff_forall_ne_some]
      intro place hplace
      exact hbound (mem_symbols_iff.mpr ⟨place, hplace⟩)
    rw [if_neg hbound, bindings, pairs_define_of_unbound hplace, Array.toList_push]
    rfl

theorem filter_rebind {name symbol : Symbol} (hsymbol : symbol ≠ name)
    (bindings : List Binding) (value : Value) :
    (rebind bindings symbol value).filter (·.symbol ≠ name) =
      rebind (bindings.filter (·.symbol ≠ name)) symbol value := by
  have hmem : symbol ∈ (bindings.filter (·.symbol ≠ name)).map Binding.symbol ↔
      symbol ∈ bindings.map Binding.symbol := by
    simp only [List.mem_map, List.mem_filter, decide_eq_true_eq]
    constructor
    · rintro ⟨binding, ⟨hbinding, _⟩, rfl⟩
      exact ⟨binding, hbinding, rfl⟩
    · rintro ⟨binding, hbinding, rfl⟩
      exact ⟨binding, ⟨hbinding, hsymbol⟩, rfl⟩
  rw [rebind, rebind]
  by_cases hbound : symbol ∈ bindings.map Binding.symbol
  · rw [if_pos hbound, if_pos (hmem.mpr hbound), List.filter_map]
    congr 1
    apply List.filter_congr
    intro binding _
    by_cases hsame : binding.symbol = symbol
    · simp [hsame, hsymbol]
    · simp [hsame]
  · rw [if_neg hbound, if_neg (mt hmem.mp hbound), List.filter_append]
    simp [hsymbol]

theorem bindingsBut_define (env : Env) {name symbol : Symbol} (hsymbol : symbol ≠ name)
    (value : Value) :
    (env.define symbol value).bindingsBut name = rebind (env.bindingsBut name) symbol value := by
  rw [bindingsBut, bindings_define, filter_rebind hsymbol, bindingsBut]

theorem mem_bindingsBut {env : Env} {name symbol : Symbol} (hsymbol : symbol ≠ name)
    {value : Value} :
    ⟨symbol, value⟩ ∈ env.bindingsBut name ↔ env.binding? symbol = some value := by
  rw [bindingsBut, List.mem_filter, binding?_eq_some, bindings, List.mem_iff_getElem?]
  simp [hsymbol]

/-- Environments that agree on other symbols give them the same values. -/
theorem lookup?_congr {env env' : Env} {name symbol : Symbol}
    (hagree : env.bindingsBut name = env'.bindingsBut name)
    (hsymbol : symbol = name → name.isConstant = true) :
    env.lookup? symbol = env'.lookup? symbol := by
  rw [lookup?, lookup?]
  split_ifs with hconstant
  · rfl
  · have hother : symbol ≠ name := by
      rintro rfl
      exact hconstant (hsymbol rfl)
    apply Option.ext
    intro value
    rw [← mem_bindingsBut hother, hagree, mem_bindingsBut hother]

/-- The functions that other symbols are bound to have code that avoids `name`. -/
def CodeAvoids (name : Symbol) (env : Env) : Prop :=
  ∀ binding ∈ env.bindingsBut name, binding.value.CodeAvoids name

instance decidableCodeAvoids (name : Symbol) (env : Env) : Decidable (env.CodeAvoids name) :=
  inferInstanceAs (Decidable (∀ binding ∈ env.bindingsBut name, binding.value.CodeAvoids name))

theorem CodeAvoids.define {name : Symbol} {env : Env} (henv : env.CodeAvoids name)
    (symbol : Symbol) {value : Value} (hvalue : value.CodeAvoids name) :
    (env.define symbol value).CodeAvoids name := by
  intro binding hmem
  rw [bindingsBut, List.mem_filter] at hmem
  rcases mem_bindings_define hmem.1 with rfl | hold
  · exact hvalue
  · exact henv binding (List.mem_filter.mpr ⟨hold, hmem.2⟩)

theorem CodeAvoids.lookup? {name symbol : Symbol} {env : Env} {value : Value}
    (henv : env.CodeAvoids name) (hsymbol : symbol = name → name.isConstant = true)
    (hvalue : env.lookup? symbol = some value) : value.CodeAvoids name := by
  rw [Env.lookup?] at hvalue
  split_ifs at hvalue with hconstant
  · cases hvalue
    trivial
  · have hother : symbol ≠ name := by
      rintro rfl
      exact hconstant (hsymbol rfl)
    exact henv ⟨symbol, value⟩ ((mem_bindingsBut hother).mpr hvalue)

end Env

namespace State

/-- Two states that differ at most in the bindings of one symbol: how their environments
bind it, where, and whether they do. -/
structure AgreeBut (name : Symbol) (first second : State) : Prop where
  envs : first.envs.map (·.bindingsBut name) = second.envs.map (·.bindingsBut name)
  depth : first.depth = second.depth
  calls : first.calls = second.calls
  out : first.out = second.out
  log : first.log = second.log

/-- The functions in the environments, but for values of `name` itself, have code that
avoids `name`. -/
def CodeAvoids (name : Symbol) (state : State) : Prop :=
  ∀ env ∈ state.envs, env.CodeAvoids name

instance decidableCodeAvoids (name : Symbol) (state : State) :
    Decidable (state.CodeAvoids name) :=
  inferInstanceAs (Decidable (∀ env ∈ state.envs, env.CodeAvoids name))

/-- States that differ at most in the bindings of a symbol that no code in them asks for. -/
structure Twins (name : Symbol) (first second : State) : Prop where
  agree : first.AgreeBut name second
  code : first.CodeAvoids name

section

variable {name : Symbol} {state state' : State}

theorem AgreeBut.env (hagree : state.AgreeBut name state') (number : Nat) :
    state.envs[number]?.map (·.bindingsBut name) =
      state'.envs[number]?.map (·.bindingsBut name) := by
  rw [← Array.getElem?_map, ← Array.getElem?_map, hagree.envs]

/-- Both states have an environment of a number, or neither has. -/
theorem Twins.env_cases (htwins : Twins name state state') (number : Nat) :
    (state.envs[number]? = none ∧ state'.envs[number]? = none) ∨
      ∃ env env' : Env, state.envs[number]? = some env ∧ state'.envs[number]? = some env' ∧
        env.bindingsBut name = env'.bindingsBut name ∧ env.CodeAvoids name := by
  have hagree := htwins.agree.env number
  cases henv : state.envs[number]? with
  | none =>
      rw [henv, Option.map_none, eq_comm, Option.map_eq_none_iff] at hagree
      exact .inl ⟨rfl, hagree⟩
  | some env =>
      rw [henv, Option.map_some, eq_comm, Option.map_eq_some_iff] at hagree
      obtain ⟨env', henv', hsame⟩ := hagree
      exact .inr ⟨env, env', rfl, henv', hsame.symm,
        htwins.code env (Array.mem_of_getElem? henv)⟩

/-- To define another symbol is to bind it among the bindings of the other symbols. -/
theorem map_bindingsBut_define (state : State) (scope : Nat) {symbol : Symbol}
    (hsymbol : symbol ≠ name) (value : Value) :
    (state.define scope symbol value).envs.map (·.bindingsBut name) =
      (state.envs.map (·.bindingsBut name)).modify scope (Env.rebind · symbol value) := by
  apply Array.ext_getElem?
  intro number
  simp only [State.define, Array.getElem?_map, Array.getElem?_modify]
  split_ifs
  · simp only [Option.map_map, Function.comp_def, Env.bindingsBut_define _ hsymbol]
  · rfl

theorem Twins.define (htwins : Twins name state state') (scope : Nat) {symbol : Symbol}
    (hsymbol : symbol ≠ name) {value : Value} (hvalue : value.CodeAvoids name) :
    Twins name (state.define scope symbol value) (state'.define scope symbol value) where
  agree := by
    refine ⟨?_, htwins.agree.depth, htwins.agree.calls, htwins.agree.out, htwins.agree.log⟩
    rw [map_bindingsBut_define state scope hsymbol, map_bindingsBut_define state' scope hsymbol,
      htwins.agree.envs]
  code := by
    intro env hmem
    obtain ⟨number, henv⟩ := Array.getElem?_of_mem hmem
    rw [State.define, Array.getElem?_modify] at henv
    split_ifs at henv
    · obtain ⟨old, hold, rfl⟩ := Option.map_eq_some_iff.mp henv
      exact (htwins.code old (Array.mem_of_getElem? hold)).define symbol hvalue
    · exact htwins.code env (Array.mem_of_getElem? henv)

theorem Twins.addEnv (htwins : Twins name state state') {env env' : Env}
    (hagree : env.bindingsBut name = env'.bindingsBut name) (henv : env.CodeAvoids name) :
    Twins name (state.addEnv env).2 (state'.addEnv env').2 where
  agree := by
    refine ⟨?_, htwins.agree.depth, htwins.agree.calls, htwins.agree.out, htwins.agree.log⟩
    simp only [State.addEnv, Array.map_push, htwins.agree.envs, hagree]
  code := by
    intro other hmem
    rcases Array.mem_push.mp hmem with hold | rfl
    · exact htwins.code other hold
    · exact henv

theorem AgreeBut.size (hagree : state.AgreeBut name state') :
    state.envs.size = state'.envs.size := by
  simpa using congrArg Array.size hagree.envs

theorem Twins.enter (htwins : Twins name state state') : Twins name state.enter state'.enter :=
  ⟨{ htwins.agree with depth := congrArg (· + 1) htwins.agree.depth }, htwins.code⟩

theorem Twins.leave (htwins : Twins name state state') : Twins name state.leave state'.leave :=
  ⟨{ htwins.agree with depth := congrArg (· - 1) htwins.agree.depth }, htwins.code⟩

theorem Twins.note (htwins : Twins name state state') (message : Bytes) :
    Twins name (state.note message) (state'.note message) :=
  ⟨{ htwins.agree with log := congrArg (message :: ·) htwins.agree.log }, htwins.code⟩

theorem Twins.pushCall (htwins : Twins name state state') (frame : Frame) :
    Twins name (state.pushCall frame) (state'.pushCall frame) :=
  ⟨{ htwins.agree with calls := congrArg (frame :: ·) htwins.agree.calls }, htwins.code⟩

theorem Twins.withOut (htwins : Twins name state state') (out : Sink) :
    Twins name (state.withOut out) (state'.withOut out) :=
  ⟨{ htwins.agree with out := rfl }, htwins.code⟩

end

end State

/-! ### Two evaluations side by side -/

namespace Eval

open State (Twins)

/-- Results that differ at most in the bindings of a symbol that no code in them asks for. -/
structure Alike (name : Symbol) (first second : Outcome × State) : Prop where
  outcome : first.1 = second.1
  value (value : Value) (hvalue : first.1 = .value value) : value.CodeAvoids name
  state : Twins name first.2 second.2

/-- An evaluator for which the bindings of a symbol make no difference to code that does not
ask for them. -/
structure Blind (name : Symbol) (ev : Evaluator) : Prop where
  alike {expr : Value} {scope : Nat} {state state' : State} (hexpr : expr.Avoids name)
    (htwins : Twins name state state') :
    Alike name (ev expr scope state) (ev expr scope state')

section

variable {name : Symbol} {ev : Evaluator} {config : Config} {state state' : State}

theorem Alike.yield (htwins : Twins name state state') {value : Value}
    (hvalue : value.CodeAvoids name) : Alike name (.value value, state) (.value value, state') where
  outcome := rfl
  value other hother := by
    cases hother
    exact hvalue
  state := htwins

theorem Alike.fail (htwins : Twins name state state') (reason : Reason) :
    Alike name (.fail reason, state) (.fail reason, state') :=
  ⟨rfl, (fun _ hvalue => nomatch hvalue), htwins⟩

theorem Alike.crashed (htwins : Twins name state state') :
    Alike name (.crashed, state) (.crashed, state') :=
  ⟨rfl, (fun _ hvalue => nomatch hvalue), htwins⟩

theorem Alike.andThen {first first' : Outcome × State}
    {next next' : Value → State → Outcome × State} (hfirst : Alike name first first')
    (hnext : ∀ (value : Value) (middle middle' : State), value.CodeAvoids name →
      Twins name middle middle' → Alike name (next value middle) (next' value middle')) :
    Alike name (andThen first next) (andThen first' next') := by
  obtain ⟨outcome, middle⟩ := first
  obtain ⟨outcome', middle'⟩ := first'
  obtain ⟨houtcome, hvalue, htwins⟩ := hfirst
  dsimp only at houtcome hvalue htwins
  subst houtcome
  cases outcome with
  | value value => exact hnext value middle middle' (hvalue value rfl) htwins
  | failed failure => exact ⟨rfl, hvalue, htwins⟩
  | crashed => exact ⟨rfl, hvalue, htwins⟩
  | exhausted => exact ⟨rfl, hvalue, htwins⟩

theorem alike_symbol {symbol : Symbol} (hsymbol : (Value.symbol symbol).Avoids name)
    (scope : Nat) (htwins : Twins name state state') :
    Alike name (Eval.symbol symbol scope state, state)
      (Eval.symbol symbol scope state', state') := by
  rcases htwins.env_cases scope with ⟨hnone, hnone'⟩ | ⟨env, env', henv, henv', hagree, hcode⟩
  · simp only [Eval.symbol, hnone, hnone']
    exact .crashed htwins
  · have hlookup := Env.lookup?_congr hagree hsymbol
    simp only [Eval.symbol, henv, henv', ← hlookup]
    cases hvalue : env.lookup? symbol with
    | none => exact .fail htwins _
    | some value => exact .yield htwins (hcode.lookup? hsymbol hvalue)

theorem alike_arguments (hev : Blind name ev) (scope : Nat) (all : Value) {rest : Value}
    (hrest : rest.Avoids name) {found : List Value}
    (hfound : ∀ value ∈ found, value.CodeAvoids name) (htwins : Twins name state state') :
    Alike name (arguments ev scope all rest found state)
      (arguments ev scope all rest found state') := by
  induction rest generalizing found state state' with
  | pair head tail _ ih =>
      rw [arguments_pair, arguments_pair]
      refine (hev.alike hrest.1 htwins).andThen ?_
      intro value middle middle' hvalue hmiddle
      exact ih hrest.2 (List.forall_mem_cons.mpr ⟨hvalue, hfound⟩) hmiddle
  | _ =>
      unfold arguments
      split_ifs
      · apply Alike.yield htwins
        apply Value.codeAvoids_ofList
        intro item hmem
        exact hfound item (List.mem_reverse.mp hmem)
      · exact .fail htwins _

theorem alike_body (hev : Blind name ev) (scope : Nat) {rest last : Value}
    (hrest : rest.Avoids name) (hlast : last.CodeAvoids name)
    (htwins : Twins name state state') :
    Alike name (body ev scope rest last state) (body ev scope rest last state') := by
  induction rest generalizing last state state' with
  | pair head tail _ ih =>
      rw [body_pair, body_pair]
      refine (hev.alike hrest.1 htwins).andThen ?_
      intro value middle middle' hvalue hmiddle
      exact ih hrest.2 hvalue hmiddle
  | _ => exact .yield htwins hlast

/-- Parameters other than the symbol are bound alike where environments differ at most in
the bindings of the symbol. -/
theorem bind_alike (config : Config) (callee : Symbol) (all : Value) {parameters arguments : Value}
    {env env' : Env} (hparameters : parameters.Avoids name)
    (harguments : arguments.CodeAvoids name)
    (hagree : env.bindingsBut name = env'.bindingsBut name) (henv : env.CodeAvoids name) :
    (∃ reason, bind config callee all parameters arguments env = .error reason ∧
        bind config callee all parameters arguments env' = .error reason) ∨
      ∃ bound bound', bind config callee all parameters arguments env = .ok bound ∧
        bind config callee all parameters arguments env' = .ok bound' ∧
        bound.bindingsBut name = bound'.bindingsBut name ∧ bound.CodeAvoids name := by
  induction parameters generalizing arguments env env' with
  | pair head tail _ ih =>
      cases head with
      | symbol parameter =>
          by_cases hconstant : parameter.isConstant = true
          · exact .inl ⟨.constantParameter callee parameter, by simp [bind, hconstant],
              by simp [bind, hconstant]⟩
          · cases arguments with
            | pair argument arguments =>
                have hother : parameter ≠ name := by
                  rintro rfl
                  exact hconstant (hparameters.1 rfl)
                have hbound : (env.define parameter argument).bindingsBut name =
                    (env'.define parameter argument).bindingsBut name := by
                  rw [Env.bindingsBut_define _ hother, Env.bindingsBut_define _ hother, hagree]
                simpa [bind, hconstant] using ih hparameters.2 harguments.2 hbound
                  (henv.define parameter harguments.1)
            | _ =>
                exact .inl ⟨.missingArguments callee, by simp [bind, hconstant],
                  by simp [bind, hconstant]⟩
      | _ => exact .inl ⟨_, rfl, rfl⟩
  | _ =>
      rw [bind_ending config callee all arguments env (by simp),
        bind_ending config callee all arguments env' (by simp)]
      split_ifs
      · exact .inl ⟨_, rfl, rfl⟩
      · exact .inl ⟨_, rfl, rfl⟩
      · exact .inr ⟨env, env', rfl, rfl, hagree, henv⟩

theorem alike_call (hev : Blind name ev) {function arguments : Value}
    (hfunction : function.CodeAvoids name) (harguments : arguments.CodeAvoids name)
    (htwins : Twins name state state') :
    Alike name (call ev config function arguments state)
      (call ev config function arguments state') := by
  cases function with
  | primitive primitive =>
      simp only [call, ← htwins.agree.out]
      exact ⟨rfl, fun value hvalue => harguments.primitive hvalue, htwins.withOut _⟩
  | closure callee parameters expressions scope =>
      obtain ⟨hparameters, hexpressions⟩ := hfunction
      simp only [call, callClosure]
      cases scope with
      | none => exact .crashed htwins
      | some captured =>
          simp only [Option.bind_some]
          rcases htwins.env_cases captured with
            ⟨hnone, hnone'⟩ | ⟨env, env', henv, henv', hagree, hcode⟩
          · simp only [hnone, hnone']
            exact .crashed htwins
          · simp only [henv, henv']
            rcases bind_alike config callee parameters hparameters harguments hagree hcode with
              ⟨reason, hreason, hreason'⟩ | ⟨bound, bound', hbound, hbound', hsame, hbounds⟩
            · simp only [hreason, hreason']
              exact .fail htwins reason
            · -- Both calls work in a new environment of the same number.
              have hnew := htwins.addEnv hsame hbounds
              simp only [hbound, hbound']
              have hsize : (state'.addEnv bound').1 = (state.addEnv bound).1 :=
                htwins.agree.size.symm
              rw [hsize]
              exact alike_body hev _ hexpressions trivial hnew
  | _ => exact .crashed htwins

theorem Alike.finish {result result' : Outcome × State} (hresult : Alike name result result') :
    Alike name (finish result) (finish result') := by
  obtain ⟨outcome, last⟩ := result
  obtain ⟨outcome', last'⟩ := result'
  obtain ⟨houtcome, hvalue, htwins⟩ := hresult
  dsimp only at houtcome hvalue htwins
  subst houtcome
  by_cases hcrashed : outcome = .crashed
  · subst hcrashed
    exact .crashed htwins
  · have hcalls := htwins.agree.calls
    cases hstack : last.calls with
    | nil =>
        rw [hstack] at hcalls
        cases outcome <;> simp only [Eval.finish, State.popCall?, hstack, ← hcalls] <;>
          exact .crashed htwins
    | cons frame below =>
        rw [hstack] at hcalls
        rw [finish_of_ne_crashed hcrashed hstack, finish_of_ne_crashed hcrashed hcalls.symm]
        refine ⟨rfl, ?_, { htwins.agree with calls := rfl }, htwins.code⟩
        intro value hvalue'
        cases outcome with
        | value given =>
            cases hvalue'
            exact hvalue value rfl
        | _ => cases hvalue'

theorem alike_apply (hev : Blind name ev) {function arguments : Value}
    (hfunction : function.CodeAvoids name) (harguments : arguments.CodeAvoids name)
    (htwins : Twins name state state') :
    Alike name (apply ev config function arguments state)
      (apply ev config function arguments state') := by
  unfold apply
  split
  · exact .fail htwins _
  · next frame _ => exact (alike_call hev hfunction harguments (htwins.pushCall frame)).finish

theorem alike_application (hev : Blind name ev) {head tail : Value}
    (hhead : head.Avoids name) (htail : tail.Avoids name) (scope : Nat)
    (htwins : Twins name state state') :
    Alike name (application ev config head tail scope state)
      (application ev config head tail scope state') := by
  rw [application_eq, application_eq]
  refine (hev.alike hhead htwins).andThen ?_
  intro function middle middle' hfunction hmiddle
  unfold applyTo
  split_ifs
  · exact .fail hmiddle _
  · refine (alike_arguments hev scope tail htail (by simp) hmiddle).andThen ?_
    intro values last last' hvalues hlast
    exact alike_apply hev hfunction hvalues hlast

theorem alike_conditional (hev : Blind name ev) {tail : Value} (htail : tail.Avoids name)
    (scope : Nat) (htwins : Twins name state state') :
    Alike name (conditional ev tail scope state) (conditional ev tail scope state') := by
  cases hitems : checkedArguments Symbol.ifForm.name ⟨2, some 3⟩ tail with
  | error reason =>
      simp only [conditional, hitems]
      exact .fail htwins reason
  | ok items =>
      have hall := htail.checkedArguments hitems
      rcases items with _ | ⟨test, _ | ⟨yes, rest⟩⟩
      · simp only [conditional, hitems]
        exact .crashed htwins
      · simp only [conditional, hitems]
        exact .crashed htwins
      · rw [conditional_eq ev hitems, conditional_eq ev hitems]
        refine (hev.alike (hall test (by simp)) htwins).andThen ?_
        intro value middle middle' _ hmiddle
        unfold branch
        split
        · exact hev.alike (hall yes (by simp)) hmiddle
        · split
          · exact .yield hmiddle trivial
          · exact hev.alike (hall _ (by simp)) hmiddle

theorem alike_definition (hev : Blind name ev) {tail : Value} (htail : tail.Avoids name)
    (scope : Nat) (htwins : Twins name state state') :
    Alike name (definition ev tail scope state) (definition ev tail scope state') := by
  cases hitems : checkedArguments Symbol.defineForm.name (.exactly 2) tail with
  | error reason =>
      simp only [definition, hitems]
      exact .fail htwins reason
  | ok items =>
      have hall := htail.checkedArguments hitems
      rcases items with _ | ⟨target, _ | ⟨expr, rest⟩⟩
      · simp only [definition, hitems]
        exact .crashed htwins
      · simp only [definition, hitems]
        exact .crashed htwins
      · cases hname : definedName .defineForm target with
        | error reason =>
            simp only [definition, hitems, hname]
            exact .fail htwins reason
        | ok other =>
            rw [definition_eq ev hitems hname, definition_eq ev hitems hname]
            refine (hev.alike (hall expr (by simp)) htwins).andThen ?_
            intro value middle middle' hvalue hmiddle
            have hother := ne_of_definedName (hall target (by simp)) hname
            exact .yield (hmiddle.define scope hother hvalue) hvalue

/-- The body of a function that is defined comes from the code that defines it. -/
theorem alike_functionDefinition {tail : Value} (htail : tail.Avoids name) (scope : Nat)
    (htwins : Twins name state state') :
    Alike name (functionDefinition tail scope state) (functionDefinition tail scope state') := by
  cases hitems : checkedArguments Symbol.defunForm.name (.atLeast 3) tail with
  | error reason =>
      simp only [functionDefinition, hitems]
      exact .fail htwins reason
  | ok items =>
      have hall := htail.checkedArguments hitems
      rcases items with _ | ⟨target, _ | ⟨parameters, expressions⟩⟩
      · simp only [functionDefinition, hitems]
        exact .crashed htwins
      · simp only [functionDefinition, hitems]
        exact .crashed htwins
      · cases hname : definedName .defunForm target with
        | error reason =>
            simp only [functionDefinition, hitems, hname]
            exact .fail htwins reason
        | ok other =>
            have hother := ne_of_definedName (hall target (by simp)) hname
            have hbody : (Value.ofList expressions).Avoids name :=
              Value.avoids_ofList fun item hmem => hall item (by simp [hmem])
            simp only [functionDefinition, hitems, hname]
            have hclosure : (Value.closure other parameters (.ofList expressions)
                (some scope)).CodeAvoids name := ⟨hall parameters (by simp), hbody⟩
            exact .yield (htwins.define scope hother hclosure) trivial

theorem alike_quotation {tail : Value} (htail : tail.Avoids name)
    (htwins : Twins name state state') :
    Alike name (quotation tail state) (quotation tail state') := by
  unfold quotation
  split
  · exact .fail htwins _
  · next value _ hitems =>
      exact .yield htwins (htail.checkedArguments hitems value (by simp)).codeAvoids
  · exact .crashed htwins

theorem alike_expression (hev : Blind name ev) {expr : Value} (hexpr : expr.Avoids name)
    (scope : Nat) (htwins : Twins name state state') :
    Alike name (expression ev config expr scope state)
      (expression ev config expr scope state') := by
  cases expr with
  | symbol symbol => exact alike_symbol hexpr scope htwins
  | pair head tail =>
      obtain ⟨hhead, htail⟩ := hexpr
      simp only [expression, pair]
      split_ifs
      · exact alike_conditional hev htail scope htwins
      · exact alike_definition hev htail scope htwins
      · exact alike_functionDefinition htail scope htwins
      · exact alike_quotation htail htwins
      · exact alike_application hev hhead htail scope htwins
  | _ => exact .yield htwins hexpr.codeAvoids

/-- Evaluation with any amount of fuel is blind to symbols that its code avoids. -/
theorem blind_eval (config : Config) (fuel : Nat) : Blind name (eval config fuel) := by
  induction fuel with
  | zero =>
      refine ⟨fun {expr scope state state'} _ htwins => ?_⟩
      exact ⟨rfl, (fun _ hvalue => nomatch hvalue), htwins⟩
  | succ fuel ih =>
      refine ⟨fun {expr scope state state'} hexpr htwins => ?_⟩
      have hentered := htwins.enter
      have hdepth := hentered.agree.depth
      have hmessage : depthMessage config state.enter = depthMessage config state'.enter := by
        rw [depthMessage, depthMessage, hentered.agree.calls]
      simp only [eval, ← hdepth, ← hmessage]
      split_ifs
      · exact .fail (hentered.note _).leave _
      · have hparts : Alike name (expression (eval config fuel) config expr scope state.enter)
            (expression (eval config fuel) config expr scope state'.enter) :=
          alike_expression ih hexpr scope hentered
        exact ⟨hparts.outcome, hparts.value, hparts.state.leave⟩

end

end Eval

/-- Definitions that a program does not mention cannot influence it.  Take two states that
differ at most in how, or whether, their environments bind a symbol, where neither the
expression nor a function in it or in the environments asks for the symbol.  Then the
expression finishes in the one state exactly if it does in the other, with the same outcome
and output, and the states behind it again differ at most in the bindings of the symbol. -/
theorem unmentioned_definitions_have_no_influence (config : Config) {name : Symbol}
    {expr : Value} (scope : Nat) {first second : State} (hagree : first.AgreeBut name second)
    (hexpr : expr.Avoids name) (hcode : first.CodeAvoids name) :
    ((∃ result, Evaluates config expr scope first result) ↔
        ∃ result, Evaluates config expr scope second result) ∧
      ∀ result result', Evaluates config expr scope first result →
        Evaluates config expr scope second result' →
          result.1 = result'.1 ∧ result.2.out.text = result'.2.out.text ∧
            result.2.AgreeBut name result'.2 := by
  have halike : ∀ fuel, Eval.Alike name (eval config fuel expr scope first)
      (eval config fuel expr scope second) :=
    fun fuel => (Eval.blind_eval config fuel).alike hexpr ⟨hagree, hcode⟩
  refine ⟨⟨?_, ?_⟩, ?_⟩
  · rintro ⟨result, hfinished, fuel, rfl⟩
    rw [(halike fuel).outcome] at hfinished
    exact ⟨_, .of_finished fuel hfinished⟩
  · rintro ⟨result, hfinished, fuel, rfl⟩
    rw [← (halike fuel).outcome] at hfinished
    exact ⟨_, .of_finished fuel hfinished⟩
  · rintro result result' ⟨hfinished, fuel, rfl⟩ hsecond
    have hsame := halike fuel
    rw [hsame.outcome] at hfinished
    rw [(Evaluates.of_finished fuel hfinished).unique hsecond]
    exact ⟨hsame.outcome, congrArg Sink.text hsame.state.agree.out, hsame.state.agree⟩

/-- A state in which `F` prints its argument, `D` is a list with the symbol `X` in it, and
`X` may be bound too. -/
def echoing (x : Option Value) : State :=
  let symbol (name : String) : Symbol := ⟨utf8 name⟩
  let echo : Value := .ofList [.symbol (symbol "PRINT"), .symbol (symbol "Y")]
  let env := x.elim .empty (Env.empty.define (symbol "X"))
  let env := env.define (symbol "PRINT") (.primitive (.named (utf8 "PRINT")))
  let env := env.define (symbol "F")
    (.closure (symbol "F") (.ofList [.symbol (symbol "Y")]) (.ofList [echo]) (some 0))
  let env := env.define (symbol "D") (.ofList [.symbol (symbol "X")])
  ⟨#[env], 0, [], ⟨[], none, 0⟩, []⟩

/-- Whether `X` is bound makes no difference to printing a list with `X` in it. -/
theorem unmentioned_definitions_have_no_influence_echoing :
    let expr : Value := .ofList [.symbol ⟨utf8 "F"⟩, .symbol ⟨utf8 "D"⟩]
    let config : Config := ⟨Config.defaultMaxDepth, false⟩
    ∃ result result', Evaluates config expr 0 (echoing none) result ∧
      Evaluates config expr 0 (echoing (some (.int 1))) result' ∧ result.1 = result'.1 ∧
      result.2.out.text = utf8 "(X)\n" ∧ result'.2.out.text = utf8 "(X)\n" ∧
      result.2.AgreeBut ⟨utf8 "X"⟩ result'.2 := by
  intro expr config
  have hagree : (echoing none).AgreeBut ⟨utf8 "X"⟩ (echoing (some (.int 1))) :=
    ⟨by decide +kernel, rfl, rfl, rfl, rfl⟩
  have hfinished : (eval config 5 expr 0 (echoing none)).1 ≠ .exhausted := by decide +kernel
  have hprinted : (eval config 5 expr 0 (echoing none)).2.out.text = utf8 "(X)\n" := by
    decide +kernel
  obtain ⟨hfinishes, hsame⟩ := unmentioned_definitions_have_no_influence config 0 hagree
    (show expr.Avoids ⟨utf8 "X"⟩ by decide +kernel) (by decide +kernel)
  have hfirst := Evaluates.of_finished 5 hfinished
  obtain ⟨result', hsecond⟩ := hfinishes.mp ⟨_, hfirst⟩
  obtain ⟨houtcome, hout, hstates⟩ := hsame _ _ hfirst hsecond
  exact ⟨_, result', hfirst, hsecond, houtcome, hprinted, hout ▸ hprinted, hstates⟩

end MiniLisp
