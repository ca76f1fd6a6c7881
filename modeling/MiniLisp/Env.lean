import MiniLisp.Value

/-!
Environments.  An environment binds symbols to values in the order in which the
symbols were first defined, and keeps an index of where each symbol stands among them.
Environments are not linked: a call works in a copy of the environment that its function
was defined in.
-/

namespace MiniLisp

/-- A symbol with its value. -/
structure Binding where
  symbol : Symbol
  value : Value
deriving DecidableEq, Repr, Inhabited

/-- An index knows the places of the bindings: it leads from a symbol to a place exactly
when the binding there is one of the symbol. -/
def Env.Indexes (index : List (Symbol × Nat)) (pairs : Array Binding) : Prop :=
  ∀ (symbol : Symbol) (place : Nat),
    index.lookup symbol = some place ↔ pairs[place]?.map Binding.symbol = some symbol

namespace Env.Indexes

theorem empty : Indexes [] #[] := by
  simp [Indexes]

/-- A new value leaves a binding in its place. -/
theorem overwrite {index : List (Symbol × Nat)} {pairs : Array Binding}
    (hindexes : Indexes index pairs) (place : Nat) (value : Value) :
    Indexes index (pairs.modify place fun binding => { binding with value := value }) := by
  intro symbol other
  rw [hindexes symbol other, Array.getElem?_modify]
  by_cases hother : place = other
  · simp [hother, Option.map_map, Function.comp_def]
  · simp [hother]

/-- A new binding comes last. -/
theorem push {index : List (Symbol × Nat)} {pairs : Array Binding} {symbol : Symbol}
    (hindexes : Indexes index pairs) (hnew : index.lookup symbol = none) (value : Value) :
    Indexes ((symbol, pairs.size) :: index) (pairs.push ⟨symbol, value⟩) := by
  intro other place
  have hold := hindexes other place
  have hunbound : ∀ place : Nat, pairs[place]?.map Binding.symbol ≠ some symbol := by
    intro place hplace
    rw [← hindexes symbol place, hnew] at hplace
    cases hplace
  rw [Array.getElem?_push, List.lookup_cons]
  by_cases hother : other = symbol
  · by_cases hplace : place = pairs.size
    · simp [hother, hplace]
    · simpa [hother, hplace, Ne.symm hplace] using hunbound place
  · have hsymbol : (other == symbol) = false := beq_false_of_ne hother
    rw [hsymbol]
    by_cases hplace : place = pairs.size
    · simpa [hplace, Ne.symm hother] using hold
    · simpa [hplace] using hold

end Env.Indexes

structure Env where
  /-- The bindings in order of first definition. -/
  pairs : Array Binding
  /-- The place of each bound symbol among the bindings. -/
  index : List (Symbol × Nat)
  indexed : Env.Indexes index pairs
deriving DecidableEq, Repr

namespace Env

def empty : Env :=
  ⟨#[], [], .empty⟩

/-- The bindings in order of first definition. -/
def bindings (env : Env) : List Binding :=
  env.pairs.toList

def symbols (env : Env) : List Symbol :=
  env.bindings.map Binding.symbol

def size (env : Env) : Nat :=
  env.pairs.size

def place? (env : Env) (symbol : Symbol) : Option Nat :=
  env.index.lookup symbol

/-- The value that a definition gave to a symbol. -/
def binding? (env : Env) (symbol : Symbol) : Option Value :=
  (env.place? symbol).bind fun place => env.pairs[place]?.map Binding.value

/-- The value of a symbol.  Constants always stand for themselves. -/
def lookup? (env : Env) (symbol : Symbol) : Option Value :=
  if symbol.isConstant then some (.symbol symbol) else env.binding? symbol

/-- Bind a symbol.  A symbol that is bound already keeps its place. -/
def define (env : Env) (symbol : Symbol) (value : Value) : Env :=
  match hplace : env.place? symbol with
  | some place =>
      ⟨env.pairs.modify place fun binding => { binding with value := value }, env.index,
        env.indexed.overwrite place value⟩
  | none =>
      ⟨env.pairs.push ⟨symbol, value⟩, (symbol, env.pairs.size) :: env.index,
        env.indexed.push hplace value⟩

theorem place?_eq_some {env : Env} {symbol : Symbol} {place : Nat} :
    env.place? symbol = some place ↔ env.pairs[place]?.map Binding.symbol = some symbol :=
  env.indexed symbol place

theorem pairs_define_of_bound {env : Env} {symbol : Symbol} {place : Nat}
    (hplace : env.place? symbol = some place) (value : Value) :
    (env.define symbol value).pairs =
      env.pairs.modify place fun binding => { binding with value := value } := by
  rw [define]
  split
  · next other hother =>
      rw [hplace] at hother
      cases hother
      rfl
  · next hnone =>
      rw [hplace] at hnone
      cases hnone

theorem pairs_define_of_unbound {env : Env} {symbol : Symbol}
    (hplace : env.place? symbol = none) (value : Value) :
    (env.define symbol value).pairs = env.pairs.push ⟨symbol, value⟩ := by
  rw [define]
  split
  · next place hsome =>
      rw [hplace] at hsome
      cases hsome
  · rfl

/-- The symbols stay as they are when one of them is defined again. -/
theorem symbols_define_of_bound {env : Env} {symbol : Symbol} {place : Nat}
    (hplace : env.place? symbol = some place) (value : Value) :
    (env.define symbol value).symbols = env.symbols := by
  rw [symbols, bindings, pairs_define_of_bound hplace, symbols, bindings]
  apply List.ext_getElem?
  intro other
  rw [List.getElem?_map, List.getElem?_map, Array.getElem?_toList, Array.getElem?_toList,
    Array.getElem?_modify]
  by_cases hother : place = other
  · simp [hother, Option.map_map, Function.comp_def]
  · simp [hother]

/-- A symbol that is defined for the first time comes last. -/
theorem symbols_define_of_unbound {env : Env} {symbol : Symbol}
    (hplace : env.place? symbol = none) (value : Value) :
    (env.define symbol value).symbols = env.symbols ++ [symbol] := by
  rw [symbols, bindings, pairs_define_of_unbound hplace, symbols, bindings]
  simp

theorem binding?_eq_some {env : Env} {symbol : Symbol} {value : Value} :
    env.binding? symbol = some value ↔ ∃ place : Nat, env.pairs[place]? = some ⟨symbol, value⟩ := by
  rw [binding?, Option.bind_eq_some_iff]
  constructor
  · rintro ⟨place, hplace, hvalue⟩
    obtain ⟨binding, hbinding, rfl⟩ := Option.map_eq_some_iff.mp hvalue
    have hsymbol := place?_eq_some.mp hplace
    rw [hbinding] at hsymbol
    cases hsymbol
    exact ⟨place, hbinding⟩
  · rintro ⟨place, hbinding⟩
    refine ⟨place, place?_eq_some.mpr ?_, ?_⟩ <;> simp [hbinding]

theorem binding?_define_self (env : Env) (symbol : Symbol) (value : Value) :
    (env.define symbol value).binding? symbol = some value := by
  rw [binding?_eq_some]
  cases hplace : env.place? symbol with
  | none => exact ⟨env.pairs.size, by simp [pairs_define_of_unbound hplace]⟩
  | some place =>
      obtain ⟨binding, hbinding, rfl⟩ := Option.map_eq_some_iff.mp (place?_eq_some.mp hplace)
      exact ⟨place, by simp [pairs_define_of_bound hplace, Array.getElem?_modify, hbinding]⟩

theorem binding?_define_of_ne (env : Env) {symbol other : Symbol} (hother : other ≠ symbol)
    (value : Value) : (env.define symbol value).binding? other = env.binding? other := by
  apply Option.ext
  intro given
  rw [binding?_eq_some, binding?_eq_some]
  apply exists_congr
  intro place
  cases hplace : env.place? symbol with
  | none =>
      rw [pairs_define_of_unbound hplace, Array.getElem?_push]
      by_cases hlast : place = env.pairs.size
      · simp [hlast, Ne.symm hother]
      · rw [if_neg hlast]
  | some bound =>
      rw [pairs_define_of_bound hplace, Array.getElem?_modify]
      by_cases hbound : bound = place
      · subst hbound
        obtain ⟨binding, hbinding, hsymbol⟩ :=
          Option.map_eq_some_iff.mp (place?_eq_some.mp hplace)
        have hnot : binding.symbol ≠ other := fun heq => hother (heq.symm.trans hsymbol)
        simp only [hbinding, ↓reduceIte, Option.map_some, Option.some.injEq]
        constructor
        · intro heq
          exact absurd (congrArg Binding.symbol heq) hnot
        · intro heq
          exact absurd (congrArg Binding.symbol heq) hnot
      · rw [if_neg hbound]

/-- A definition gives its symbol a value, and leaves the others theirs. -/
theorem binding?_define (env : Env) (symbol other : Symbol) (value : Value) :
    (env.define symbol value).binding? other =
      if other = symbol then some value else env.binding? other := by
  split
  · next heq => rw [heq, binding?_define_self]
  · next hother => exact binding?_define_of_ne env hother value

/-- A definition adds one binding and keeps others. -/
theorem mem_bindings_define {env : Env} {symbol : Symbol} {value : Value} {binding : Binding}
    (hmem : binding ∈ (env.define symbol value).bindings) :
    binding = ⟨symbol, value⟩ ∨ binding ∈ env.bindings := by
  obtain ⟨other, hother⟩ := List.mem_iff_getElem?.mp hmem
  rw [bindings, Array.getElem?_toList] at hother
  cases hplace : env.place? symbol with
  | none =>
      rw [pairs_define_of_unbound hplace, Array.getElem?_push] at hother
      split at hother
      · exact .inl (Option.some.inj hother).symm
      · exact .inr (Array.mem_toList_iff.mpr (Array.mem_of_getElem? hother))
  | some place =>
      have hsymbol := place?_eq_some.mp hplace
      rw [pairs_define_of_bound hplace, Array.getElem?_modify] at hother
      split at hother
      · next heq =>
          subst heq
          obtain ⟨old, hold, rfl⟩ := Option.map_eq_some_iff.mp hother
          rw [hold] at hsymbol
          cases hsymbol
          exact .inl rfl
      · exact .inr (Array.mem_toList_iff.mpr (Array.mem_of_getElem? hother))

end Env

end MiniLisp
