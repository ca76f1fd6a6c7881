import MiniLisp.Proofs.DepthLimit

/-!
Surplus arguments.  A function that is applied to more arguments than it has parameters
fails or ignores them, as the configuration says.  Ignoring them only removes failures: an
evaluation that does not end in an arity error ends in the same way, has printed the same
and leaves the same environments behind.
-/

namespace MiniLisp

/-- Ignoring surplus arguments allows whatever failing for them does. -/
theorem Eval.Relaxes.of_surplus (config : Config) :
    Relaxes (· = .arity) { config with surplus := false } { config with surplus := true } where
  within _ hdepth := hdepth
  depth := .inr rfl
  surplus := .inr ⟨rfl, rfl⟩

/-- To ignore surplus arguments only removes errors.  If an evaluation for which they are an
error finishes with a value, or with a failure of another condition than the wrong number of
arguments, then the evaluation that ignores them finishes with the same result: the same
outcome, the same output and the same environments.  In any case it prints what the first
evaluation printed before anything else.  Under a limit on the depth both finish. -/
theorem surplus_only_removes_errors (config : Config) (expr : Value) (scope : Nat)
    (state : State) :
    (0 < config.maxDepth → ∀ surplus,
        ∃ result, Evaluates { config with surplus := surplus } expr scope state result) ∧
      ∀ result, Evaluates { config with surplus := false } expr scope state result →
        (result.1.condition? ≠ some .arity →
          Evaluates { config with surplus := true } expr scope state result ∧
            ∀ result', Evaluates { config with surplus := true } expr scope state result' →
              result' = result) ∧
          ∀ result', Evaluates { config with surplus := true } expr scope state result' →
            result.2.out.text <+: result'.2.out.text := by
  have hrelaxes := Eval.Relaxes.of_surplus config
  constructor
  · intro hlimit surplus
    apply Evaluates.exists_of_limit
    exact hlimit
  · intro result hstrict
    constructor
    · intro hcondition
      have hloose : Evaluates { config with surplus := true } expr scope state result := by
        apply hstrict.relaxed hrelaxes
        rintro condition hfailed rfl
        exact hcondition hfailed
      exact ⟨hloose, fun result' hresult' => hloose.unique hresult'⟩
    · intro result' hresult'
      exact hstrict.text_prefix hrelaxes hresult'

/-- A function of one parameter, applied to what it is to print and to one more argument. -/
def surplusCall (surplus : Value) : Value :=
  let parameter := Value.symbol (.intern (utf8 "x"))
  let shout := Value.closure (.intern (utf8 "shout")) (.ofList [parameter])
    (.ofList [.ofList [.primitive (.named (utf8 "PRINT")), parameter]]) (some State.globalScope)
  .ofList [shout, .int 1, surplus]

/-- A surplus argument that has no value fails before anybody counts the arguments, so both
evaluations end in the same failure. -/
theorem surplus_only_removes_errors_unbound :
    ∃ result,
      Evaluates ⟨0, false⟩ (surplusCall (.symbol ⟨utf8 "Y"⟩)) State.globalScope
          Interpreter.blank.state result ∧
        result.1.condition? = some .undefined ∧
        Evaluates ⟨0, true⟩ (surplusCall (.symbol ⟨utf8 "Y"⟩)) State.globalScope
          Interpreter.blank.state result := by
  have hstrict : Evaluates ⟨0, false⟩ (surplusCall (.symbol ⟨utf8 "Y"⟩)) State.globalScope
      Interpreter.blank.state _ := .of_finished 2 (by decide +kernel)
  have hundefined : (eval ⟨0, false⟩ 2 (surplusCall (.symbol ⟨utf8 "Y"⟩)) State.globalScope
      Interpreter.blank.state).1.condition? = some .undefined := by decide +kernel
  refine ⟨_, hstrict, hundefined, ?_⟩
  refine (((surplus_only_removes_errors ⟨0, false⟩ _ _ _).2 _ hstrict).1 ?_).1
  rw [hundefined]
  decide

/-- With a value for it, the surplus argument is what the two configurations differ in. -/
example :
    (eval ⟨0, false⟩ 4 (surplusCall (.int 2)) State.globalScope
        Interpreter.blank.state).1.condition? = some .arity ∧
      (eval ⟨0, true⟩ 4 (surplusCall (.int 2)) State.globalScope
        Interpreter.blank.state).1 = .value (.int 1) := by
  decide +kernel

end MiniLisp
