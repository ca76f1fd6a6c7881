import Mathlib.Data.List.Nodup
import MiniLisp.Proofs.Record
import MiniLisp.Proofs.Safety

/-!
What environments hold.  A ledger lists for every environment the definitions made in it, in
order, those that a copy inherits included.  At every moment of a run the environments of an
interpreter are what the ledger of its record says: a symbol has the value that it was given
last, the symbols stand in the order in which they were first defined, each of them once and
where the index says, and no constant is among them.
-/

namespace MiniLisp

/-! ### Ledgers -/

/-- The definitions made in each environment, in order, by its number. -/
abbrev Ledger := Array (List (Symbol × Value))

/-- Enter an event.  A copy starts with the definitions of the environment it is one of. -/
def Event.enter (ledger : Ledger) : Event → Ledger
  | .copied scope =>
      match ledger[scope]? with
      | some given => ledger.push given
      | none => ledger
  | .defined scope symbol value => ledger.modify scope (· ++ [(symbol, value)])
  | _ => ledger

/-- The ledger of a history that starts with one empty environment. -/
def Ledger.ofHistory (history : List Event) : Ledger :=
  history.foldl Event.enter #[[]]

namespace Env

theorem getElem?_symbols (env : Env) (place : Nat) :
    env.symbols[place]? = env.pairs[place]?.map Binding.symbol := by
  simp [symbols, bindings]

/-- No symbol is bound twice. -/
theorem nodup_symbols (env : Env) : env.symbols.Nodup := by
  rw [List.nodup_iff_injective_get]
  intro place other hsame
  have hget : ∀ place : Fin env.symbols.length,
      env.place? (env.symbols.get place) = some place.1 := by
    intro place
    rw [place?_eq_some, ← getElem?_symbols]
    exact List.getElem?_eq_getElem place.2
  have hplace := hget place
  rw [hsame, hget other] at hplace
  exact Fin.ext (Option.some.inj hplace).symm

theorem mem_symbols_iff {env : Env} {symbol : Symbol} :
    symbol ∈ env.symbols ↔ ∃ place, env.place? symbol = some place := by
  simp only [place?_eq_some, ← getElem?_symbols]
  exact List.mem_iff_getElem?

/-- An environment holds the definitions that were made in it. -/
structure Represents (given : List (Symbol × Value)) (env : Env) : Prop where
  /-- The index leads from a symbol to its binding and nowhere else. -/
  index (symbol : Symbol) (place : Nat) :
    env.index.lookup symbol = some place ↔
      env.pairs[place]?.map Binding.symbol = some symbol
  /-- No symbol is bound twice. -/
  nodup : env.symbols.Nodup
  /-- The symbols stand in the order in which they were first defined. -/
  symbols : env.symbols = (given.map Prod.fst).eraseDups
  /-- A symbol has the value that it was given last; a constant stands for itself. -/
  lookup (symbol : Symbol) :
    env.lookup? symbol =
      if symbol.isConstant then some (.symbol symbol) else given.reverse.lookup symbol
  /-- No constant is bound. -/
  constants (symbol : Symbol) (hsymbol : symbol ∈ env.symbols) : symbol.isConstant = false

theorem represents_empty : Represents [] .empty where
  index := Env.empty.indexed
  nodup := Env.empty.nodup_symbols
  symbols := rfl
  lookup _ := rfl
  constants _ hsymbol := absurd hsymbol List.not_mem_nil

theorem symbols_define_eq (env : Env) (symbol : Symbol) (value : Value) :
    (env.define symbol value).symbols =
      if symbol ∈ env.symbols then env.symbols else env.symbols ++ [symbol] := by
  by_cases hbound : symbol ∈ env.symbols
  · obtain ⟨place, hplace⟩ := mem_symbols_iff.mp hbound
    rw [if_pos hbound, symbols_define_of_bound hplace]
  · have hplace : env.place? symbol = none := by
      rw [Option.eq_none_iff_forall_ne_some]
      intro place hplace
      exact hbound (mem_symbols_iff.mpr ⟨place, hplace⟩)
    rw [if_neg hbound, symbols_define_of_unbound hplace]

/-- A definition is one more entry. -/
theorem Represents.define {given : List (Symbol × Value)} {env : Env}
    (hrepresents : env.Represents given) {symbol : Symbol} (value : Value)
    (hsymbol : symbol.isConstant = false) :
    (env.define symbol value).Represents (given ++ [(symbol, value)]) where
  index := (env.define symbol value).indexed
  nodup := (env.define symbol value).nodup_symbols
  symbols := by
    rw [symbols_define_eq, hrepresents.symbols, List.map_append, List.eraseDups_append]
    by_cases hbound : symbol ∈ given.map Prod.fst
    · simp [List.removeAll, hbound]
    · simp [List.removeAll, hbound, List.eraseDups_cons]
  lookup other := by
    have hother := hrepresents.lookup other
    rw [lookup?] at hother ⊢
    by_cases hconstant : other.isConstant = true
    · simp [hconstant]
    · rw [if_neg hconstant, if_neg hconstant] at hother ⊢
      rw [binding?_define, List.reverse_append, List.lookup_append, hother]
      by_cases hsame : other = symbol
      · simp [hsame]
      · simp [hsame, List.lookup_cons, beq_false_of_ne hsame]
  constants other hother := by
    rw [symbols_define_eq] at hother
    split_ifs at hother
    · exact hrepresents.constants other hother
    · rcases List.mem_append.mp hother with hother | hother
      · exact hrepresents.constants other hother
      · rw [List.mem_singleton.mp hother]
        exact hsymbol

end Env

/-! ### Histories -/

def Event.SparesConstants : Event → Prop
  | .defined _ symbol _ => symbol.isConstant = false
  | _ => True

namespace Ledger

/-- Every environment holds the definitions that the ledger has for it. -/
structure Books (ledger : Ledger) (envs : Array Env) : Prop where
  size : ledger.size = envs.size
  represents (number : Nat) (given : List (Symbol × Value)) (env : Env)
    (hgiven : ledger[number]? = some given) (henv : envs[number]? = some env) :
    env.Represents given

/-- One event leads to the same in the ledger and in the environments. -/
theorem Books.enter {ledger : Ledger} {envs : Array Env} (hbooks : ledger.Books envs)
    {event : Event} (hevent : event.SparesConstants) :
    (event.enter ledger).Books (event.replay envs) := by
  cases event with
  | yielded value => exact hbooks
  | applied function arguments => exact hbooks
  | copied scope =>
      rw [Event.enter, Event.replay]
      by_cases hscope : scope < envs.size
      · have hentered : scope < ledger.size := hbooks.size ▸ hscope
        rw [Array.getElem?_eq_getElem hscope, Array.getElem?_eq_getElem hentered]
        refine ⟨by simp [hbooks.size], ?_⟩
        intro number given env hgiven henv
        rw [Array.getElem?_push] at hgiven henv
        by_cases hnew : number = envs.size
        · rw [if_pos (hnew.trans hbooks.size.symm)] at hgiven
          rw [if_pos hnew] at henv
          cases hgiven
          cases henv
          exact hbooks.represents scope _ _ (Array.getElem?_eq_getElem hentered)
            (Array.getElem?_eq_getElem hscope)
        · rw [if_neg (hbooks.size ▸ hnew)] at hgiven
          rw [if_neg hnew] at henv
          exact hbooks.represents number given env hgiven henv
      · have hentered : ¬scope < ledger.size := hbooks.size ▸ hscope
        rw [Array.getElem?_eq_none (Nat.le_of_not_lt hscope),
          Array.getElem?_eq_none (Nat.le_of_not_lt hentered)]
        exact hbooks
  | defined scope symbol value =>
      refine ⟨by simp [Event.enter, Event.replay, hbooks.size], ?_⟩
      intro number given env hgiven henv
      rw [Event.enter, Array.getElem?_modify] at hgiven
      rw [Event.replay, Array.getElem?_modify] at henv
      by_cases hscope : scope = number
      · rw [if_pos hscope] at hgiven henv
        obtain ⟨old, hold, rfl⟩ := Option.map_eq_some_iff.mp hgiven
        obtain ⟨before, hbefore, rfl⟩ := Option.map_eq_some_iff.mp henv
        exact (hbooks.represents number old before hold hbefore).define value hevent
      · rw [if_neg hscope] at hgiven henv
        exact hbooks.represents number given env hgiven henv

/-- A history leads to the same in the ledger and in the environments. -/
theorem books_ofHistory {history : List Event}
    (hhistory : ∀ event ∈ history, event.SparesConstants) :
    (ofHistory history).Books (replay #[.empty] history) := by
  have hall : ∀ (history : List Event) (ledger : Ledger) (envs : Array Env),
      (∀ event ∈ history, event.SparesConstants) → ledger.Books envs →
        Books (history.foldl Event.enter ledger) (replay envs history) := by
    intro history
    induction history with
    | nil =>
        intro ledger envs _ hbooks
        exact hbooks
    | cons event rest ih =>
        intro ledger envs hspares hbooks
        rw [List.forall_mem_cons] at hspares
        exact ih _ _ hspares.2 (hbooks.enter hspares.1)
  apply hall history _ _ hhistory
  refine ⟨rfl, ?_⟩
  intro number given env hgiven henv
  rw [List.getElem?_toArray] at hgiven henv
  rw [List.mem_singleton.mp (List.mem_of_getElem? hgiven),
    List.mem_singleton.mp (List.mem_of_getElem? henv)]
  exact Env.represents_empty

end Ledger

namespace Interpreter

/-- The definitions that an interpreter starts with. -/
def birth : List Event :=
  Primitive.builtins.map fun primitive =>
    .defined State.globalScope (.intern primitive.name) (.primitive primitive)

theorem replay_birth : replay #[.empty] birth = #[builtinEnv] := by
  have hall : ∀ (primitives : List Primitive) (env : Env),
      replay #[env] (primitives.map fun primitive =>
        .defined State.globalScope (.intern primitive.name) (.primitive primitive)) =
      #[primitives.foldl (fun env primitive =>
        env.define (.intern primitive.name) (.primitive primitive)) env] := by
    intro primitives
    induction primitives with
    | nil => exact fun env => rfl
    | cons primitive primitives ih =>
        intro env
        exact ih (env.define (.intern primitive.name) (.primitive primitive))
  exact hall Primitive.builtins .empty

theorem birth_sparesConstants : ∀ event ∈ birth, event.SparesConstants := by
  have hnames : ∀ primitive ∈ Primitive.builtins,
      (Symbol.intern primitive.name).isConstant = false := by decide +kernel
  intro event hevent
  obtain ⟨primitive, hprimitive, rfl⟩ := List.mem_map.mp hevent
  exact hnames primitive hprimitive

/-- Everything is inherited that holds of all values. -/
theorem inherited_true : Inherited fun _ _ => True where
  mono _ _ := trivial
  symbol _ _ := trivial
  int _ _ := trivial
  text _ _ := trivial
  pair := ⟨fun _ => ⟨trivial, trivial⟩, fun _ => trivial⟩
  closure := by
    intros
    trivial
  body _ := trivial

/-- The environments of an interpreter hold the definitions that were made in them.  Whatever
is asked of a new interpreter, and however that ends, its environments are those that its
history leads to; and at every moment of the history every environment holds what its ledger
says.  There the index knows the place of every binding, no symbol is bound twice, a symbol
has the value that it was given last, there or in the environment that was copied, and the
symbols stand in the order of their first definitions.  No constant is ever bound. -/
theorem environments_hold_definitions {settings : List Setting} {it : Interpreter}
    (hnew : new settings = .ok it) (requests : List Request) :
    let history := birth ++ it.recordAll requests
    (it.performAll requests).2.state.envs = replay #[.empty] history ∧
      (∀ scope symbol value, .defined scope symbol value ∈ history →
        symbol.isConstant = false) ∧
      ∀ early, early <+: history →
        (Ledger.ofHistory early).size = (replay #[.empty] early).size ∧
          ∀ (number : Nat) (env : Env), (replay #[.empty] early)[number]? = some env →
            ∃ given, (Ledger.ofHistory early)[number]? = some given ∧ env.Represents given := by
  intro history
  have henvs := envs_new hnew
  have hrequests : ∀ request ∈ requests,
      request.Holds (fun _ _ => True) it.state.envs.size := by
    intro request _
    cases request <;> simp [Request.Holds]
  have hkept := kept_performAll inherited_true (fun _ _ _ _ _ => trivial)
    (by simp [henvs, State.globalScope]) hrequests
  have hspares : ∀ event ∈ history, event.SparesConstants := by
    intro event hevent
    rcases List.mem_append.mp hevent with hevent | hevent
    · exact birth_sparesConstants event hevent
    · have hholds := hkept.events event hevent
      cases event with
      | defined scope symbol value => exact hholds.2.1
      | _ => trivial
  refine ⟨?_, fun scope symbol value hmem => hspares _ hmem, ?_⟩
  · rw [replay_append, replay_birth, ← henvs]
    exact hkept.replay
  · intro early hearly
    have hbooks := Ledger.books_ofHistory fun event hmem => hspares event (hearly.subset hmem)
    refine ⟨hbooks.size, ?_⟩
    intro number env henv
    have hlt := (Array.getElem?_eq_some_iff.mp henv).1
    rw [← hbooks.size] at hlt
    have hgiven := Array.getElem?_eq_getElem hlt
    exact ⟨_, hgiven, hbooks.represents number _ env hgiven henv⟩

/-- A function that defines a symbol twice over, the second time by the name of its
parameter. -/
def shadowing : Value :=
  let symbol (name : String) : Value := .symbol ⟨utf8 name⟩
  .ofList [.symbol .defunForm, symbol "F", .ofList [symbol "X"],
    .ofList [.symbol .defineForm, symbol "Y", .int 1],
    .ofList [.symbol .defineForm, symbol "X", .int 2],
    .ofList [.symbol .defineForm, symbol "Y", symbol "X"]]

/-- In the environment of a call, the parameter and the symbol defined there stand behind the
primitives and the function itself, and both have their second value. -/
theorem environments_hold_definitions_shadowing :
    let it := install blank
    let requests := [.eval shadowing, .eval (.ofList [.symbol ⟨utf8 "F"⟩, .int 7])]
    ∃ env given, (it.performAll requests).2.state.envs[1]? = some env ∧
      (Ledger.ofHistory (birth ++ it.recordAll requests))[1]? = some given ∧
      env.Represents given ∧
      env.symbols.drop Primitive.builtins.length = [⟨utf8 "F"⟩, ⟨utf8 "X"⟩, ⟨utf8 "Y"⟩] ∧
      env.lookup? ⟨utf8 "X"⟩ = some (.int 2) ∧ env.lookup? ⟨utf8 "Y"⟩ = some (.int 2) := by
  intro it requests
  obtain ⟨henvs, _, hmoments⟩ :=
    environments_hold_definitions (show new [] = .ok it from rfl) requests
  obtain ⟨_, hrepresents⟩ := hmoments _ (List.prefix_refl _)
  have hsome : ((it.performAll requests).2.state.envs[1]?).isSome = true := by decide +kernel
  obtain ⟨env, henv⟩ := Option.isSome_iff_exists.mp hsome
  obtain ⟨given, hgiven, hholds⟩ := hrepresents 1 env (henvs ▸ henv)
  have hsymbols : ((it.performAll requests).2.state.envs[1]?).map
      (·.symbols.drop Primitive.builtins.length) =
        some [⟨utf8 "F"⟩, ⟨utf8 "X"⟩, ⟨utf8 "Y"⟩] := by decide +kernel
  have hvalues : ((it.performAll requests).2.state.envs[1]?).map
      (fun env => (env.lookup? ⟨utf8 "X"⟩, env.lookup? ⟨utf8 "Y"⟩)) =
        some (some (.int 2), some (.int 2)) := by decide +kernel
  rw [henv] at hsymbols hvalues
  obtain ⟨hx, hy⟩ := Prod.ext_iff.mp (Option.some.inj hvalues)
  exact ⟨env, given, henv, hgiven, hholds, Option.some.inj hsymbols, hx, hy⟩

end Interpreter

end MiniLisp
