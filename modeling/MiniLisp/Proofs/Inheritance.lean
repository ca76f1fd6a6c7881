import MiniLisp.Proofs.Relaxation

/-!
Inherited properties.  A computation makes its values of those that it is given: it takes
pairs apart, makes new ones, and answers with numbers and truth values.  What values inherit
from their parts, the results of primitives inherit from the arguments, and what all the
environments bind keeps it through definitions and new environments.
-/

namespace MiniLisp

/-! ### Items of lists -/

namespace Value

/-- What pairs hand on to their parts holds of the items of a list. -/
theorem forall_mem_spineOnto {P : Value → Prop}
    (hpair : ∀ {head tail : Value}, P (.pair head tail) → P head ∧ P tail)
    {value : Value} {found : List Value} (hvalue : P value)
    (hfound : ∀ item ∈ found, P item) : ∀ item ∈ (spineOnto found value).1, P item := by
  induction value generalizing found with
  | pair head tail _ ih =>
      obtain ⟨hhead, htail⟩ := hpair hvalue
      exact ih htail (List.forall_mem_cons.mpr ⟨hhead, hfound⟩)
  | _ =>
      intro item hmem
      exact hfound item (List.mem_reverse.mp hmem)

theorem forall_mem_toList? {P : Value → Prop}
    (hpair : ∀ {head tail : Value}, P (.pair head tail) → P head ∧ P tail)
    {value : Value} {items : List Value} (hvalue : P value)
    (hitems : value.toList? = some items) : ∀ item ∈ items, P item := by
  simp only [toList?, Option.ite_none_right_eq_some, Option.some.injEq] at hitems
  rw [← hitems.2]
  exact forall_mem_spineOnto hpair hvalue (by simp)

end Value

theorem checkedArguments_eq_ok {callee : Bytes} {arity : Arity} {arguments : Value}
    {items : List Value} (hitems : checkedArguments callee arity arguments = .ok items) :
    arguments.toList? = some items ∧ arity.least ≤ items.length := by
  rw [checkedArguments] at hitems
  split at hitems
  · cases hitems
  · next hlist =>
      split_ifs at hitems with hadmits
      cases hitems
      simp only [Arity.admits, Bool.and_eq_true, decide_eq_true_eq] at hadmits
      exact ⟨hlist, hadmits.1⟩

/-- What holds of the bindings of an environment holds of them behind a definition. -/
theorem Env.forall_mem_define {P : Value → Prop} {env : Env} {value : Value}
    (henv : ∀ binding ∈ env.bindings, P binding.value) (symbol : Symbol) (hvalue : P value) :
    ∀ binding ∈ (env.define symbol value).bindings, P binding.value := by
  intro binding hmem
  rcases mem_bindings_define hmem with rfl | hmem
  · exact hvalue
  · exact henv binding hmem

/-! ### Results of primitives -/

/-- A property of values, where there are environments with the numbers below a bound, that
values inherit from the values they are made of. -/
structure Inherited (P : (scopes : Nat) → Value → Prop) : Prop where
  mono {scopes scopes' : Nat} {value : Value} (hvalue : P scopes value)
    (hle : scopes ≤ scopes') : P scopes' value
  symbol (scopes : Nat) (symbol : Symbol) : P scopes (.symbol symbol)
  int (scopes : Nat) (n : Int64) : P scopes (.int n)
  text (scopes : Nat) (content : Bytes) : P scopes (.text content)
  pair {scopes : Nat} {head tail : Value} :
    P scopes (.pair head tail) ↔ P scopes head ∧ P scopes tail
  closure {scopes scope : Nat} (name : Symbol) {parameters body : Value}
    (hparameters : P scopes parameters) (hbody : P scopes body) (hscope : scope < scopes) :
    P scopes (.closure name parameters body (some scope))
  body {scopes : Nat} {name : Symbol} {parameters body : Value} {scope : Option Nat}
    (hclosure : P scopes (.closure name parameters body scope)) : P scopes body

section

variable {P : (scopes : Nat) → Value → Prop}

namespace Inherited

theorem empty (hP : Inherited P) (scopes : Nat) : P scopes .empty :=
  hP.symbol scopes _

theorem ofBool (hP : Inherited P) (scopes : Nat) (holds : Bool) :
    P scopes (.ofBool holds) := by
  cases holds with
  | true => exact hP.symbol scopes _
  | false => exact hP.int scopes _

theorem ofList (hP : Inherited P) {scopes : Nat} {items : List Value}
    (hitems : ∀ item ∈ items, P scopes item) : P scopes (.ofList items) := by
  apply List.foldrRecOn items Value.pair (hP.empty scopes)
  intro tail htail item hmem
  exact hP.pair.mpr ⟨hitems item hmem, htail⟩

theorem checkedArguments (hP : Inherited P) {scopes : Nat} {callee : Bytes} {arity : Arity}
    {arguments : Value} {items : List Value} (harguments : P scopes arguments)
    (hitems : checkedArguments callee arity arguments = .ok items) :
    ∀ item ∈ items, P scopes item :=
  Value.forall_mem_toList? hP.pair.mp harguments (checkedArguments_eq_ok hitems).1

/-- A primitive makes its result of its arguments. -/
theorem call (hP : Inherited P) {scopes : Nat} {primitive : Primitive} {arguments : Value}
    {out : Sink} {value : Value} (harguments : P scopes arguments)
    (hvalue : (primitive.call arguments out).1 = .value value) : P scopes value := by
  rcases primitive.call_cases arguments out with ⟨reason, hreason⟩ | ⟨items, hitems, hmakes⟩
  · rw [hvalue] at hreason
    cases hreason
  · have hall := hP.checkedArguments harguments hitems
    rw [hvalue] at hmakes
    cases hmakes with
    | int n => exact hP.int scopes n
    | bool holds => exact hP.ofBool scopes holds
    | item hmem => exact hall value hmem
    | head hmem => exact (hP.pair.mp (hall _ hmem)).1
    | tail hmem => exact (hP.pair.mp (hall _ hmem)).2
    | pair hhead htail => exact hP.pair.mpr ⟨hall _ hhead, hall _ htail⟩
    | list => exact hP.ofList hall

end Inherited

/-! ### States -/

/-- All values that the environments bind have a property. -/
def State.Holds (P : (scopes : Nat) → Value → Prop) (state : State) : Prop :=
  ∀ (number : Nat) (env : Env), state.envs[number]? = some env →
    ∀ binding ∈ env.bindings, P state.envs.size binding.value

namespace State

theorem Holds.single {state : State} {env : Env} (henvs : state.envs = #[env])
    (henv : ∀ binding ∈ env.bindings, P 1 binding.value) : state.Holds P := by
  intro number other hother
  rw [henvs, List.getElem?_toArray] at hother
  rw [henvs, List.mem_singleton.mp (List.mem_of_getElem? hother)]
  exact henv

theorem Holds.lookup? (hP : Inherited P) {state : State} {number : Nat} {env : Env}
    {symbol : Symbol} {value : Value} (hstate : state.Holds P)
    (henv : state.envs[number]? = some env) (hvalue : env.lookup? symbol = some value) :
    P state.envs.size value := by
  rw [Env.lookup?] at hvalue
  split_ifs at hvalue
  · cases hvalue
    exact hP.symbol _ symbol
  · obtain ⟨place, hbinding⟩ := Env.binding?_eq_some.mp hvalue
    exact hstate number env henv _ (Array.mem_toList_iff.mpr (Array.mem_of_getElem? hbinding))

theorem Holds.define {state : State} {value : Value} (hstate : state.Holds P) (scope : Nat)
    (symbol : Symbol) (hvalue : P state.envs.size value) :
    (state.define scope symbol value).Holds P := by
  intro number env henv
  have hsize : (state.define scope symbol value).envs.size = state.envs.size :=
    Array.size_modify
  rw [hsize]
  rw [State.define, Array.getElem?_modify] at henv
  split_ifs at henv
  · obtain ⟨old, hold, rfl⟩ := Option.map_eq_some_iff.mp henv
    exact Env.forall_mem_define (hstate number old hold) symbol hvalue
  · exact hstate number env henv

theorem Holds.addEnv (hP : Inherited P) {state : State} {env : Env} (hstate : state.Holds P)
    (henv : ∀ binding ∈ env.bindings, P state.envs.size binding.value) :
    (state.addEnv env).2.Holds P := by
  intro number other hother binding hmem
  have hsize : state.envs.size ≤ (state.addEnv env).2.envs.size := by
    simp [State.addEnv]
  rw [State.addEnv, Array.getElem?_push] at hother
  split_ifs at hother
  · cases hother
    exact hP.mono (henv binding hmem) hsize
  · exact hP.mono (hstate number other hother binding hmem) hsize

end State

end

end MiniLisp
