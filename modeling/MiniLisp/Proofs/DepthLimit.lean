import MiniLisp.Proofs.Relaxation

/-!
The limit on the depth of evaluation.  Under a limit every evaluation finishes, and a
lower limit can only cut an evaluation off: it never changes the result of one that
ends otherwise.
-/

namespace MiniLisp

theorem Config.exceeds_eq_true {config : Config} {depth : Nat} :
    config.exceeds depth = true ↔ 0 < config.maxDepth ∧ config.maxDepth < depth := by
  rw [exceeds, Bool.and_eq_true, decide_eq_true_eq, decide_eq_true_eq]

/-! ### Termination -/

theorem Primitive.call_ne_exhausted (primitive : Primitive) (arguments : Value) (out : Sink) :
    (primitive.call arguments out).1 ≠ .exhausted := by
  intro hexhausted
  rcases primitive.call_cases arguments out with ⟨reason, hreason⟩ | ⟨items, _, hmakes⟩
  · rw [hexhausted] at hreason
    cases hreason
  · rw [hexhausted] at hmakes
    cases hmakes

namespace Eval

theorem finish_ne_exhausted {result : Outcome × State} (hresult : result.1 ≠ .exhausted) :
    (finish result).1 ≠ .exhausted := by
  obtain ⟨outcome, state⟩ := result
  obtain ⟨envs, depth, calls, out, log⟩ := state
  cases outcome with
  | exhausted => exact absurd rfl hresult
  | _ => cases calls <;> simp [finish, State.popCall?, Outcome.attachStack]

/-- Evaluation from the depth `bound` on leaves the depth as it was and does not run out of
fuel. -/
theorem effect_finishes (config : Config) (bound : Nat) :
    Effect config fun _ state result =>
      result.2.depth = state.depth ∧ (bound ≤ state.depth → result.1 ≠ .exhausted) where
  stop houtcome := ⟨rfl, fun _ => houtcome⟩
  next hfirst hrest := ⟨hrest.1.trans hfirst.1, fun hbound => hrest.2 (hfirst.1 ▸ hbound)⟩
  define _ _ _ := ⟨rfl, fun _ => by simp⟩
  primitive _ state primitive arguments :=
    ⟨rfl, fun _ => primitive.call_ne_exhausted arguments state.out⟩
  closure _ _ hbody := hbody
  finish {_ _ _ result} hcall := by
    refine ⟨?_, fun hbound => finish_ne_exhausted (hcall.2 hbound)⟩
    rw [(finish_state result).2.2]
    exact hcall.1

/-- Under a limit, evaluation finishes with as much fuel as there are depths left. -/
theorem eval_ne_exhausted {config : Config} (hlimit : 0 < config.maxDepth) {fuel : Nat}
    (expr : Value) (scope : Nat) (state : State) (hpos : 0 < fuel)
    (hfuel : config.maxDepth < fuel + state.depth) :
    (eval config fuel expr scope state).1 ≠ .exhausted := by
  induction fuel generalizing expr scope state with
  | zero => exact absurd hpos (Nat.lt_irrefl 0)
  | succ fuel ih =>
      rw [eval]
      split_ifs with hexceeds
      · simp [Outcome.fail]
      · have hdepth : ((state.depth + 1 : Nat) : Int) ≤ config.maxDepth := by
          rw [Config.exceeds_eq_true, State.enter_depth] at hexceeds
          omega
        -- The parts have less fuel by one, and nest deeper by one.
        have hparts : ∀ expr scope (inner : State),
            (eval config fuel expr scope inner).2.depth = inner.depth ∧
              (state.enter.depth ≤ inner.depth →
                (eval config fuel expr scope inner).1 ≠ .exhausted) := by
          intro expr scope inner
          refine ⟨(effect_depth config).eval fuel expr scope inner, fun hinner => ?_⟩
          rw [State.enter_depth] at hinner
          exact ih expr scope inner (by omega) (by omega)
        exact ((effect_finishes config state.enter.depth).expression hparts expr scope
          state.enter).2 (Nat.le_refl _)

end Eval

theorem Evaluates.exists_of_limit {config : Config} (hlimit : 0 < config.maxDepth)
    (expr : Value) (scope : Nat) (state : State) :
    ∃ result, Evaluates config expr scope state result := by
  have hfinished : (eval config (config.maxDepth.toNat + 1) expr scope state).1 ≠
      .exhausted := Eval.eval_ne_exhausted hlimit expr scope state (by omega) (by omega)
  exact ⟨_, .of_finished _ hfinished⟩

/-! ### Limits -/

/-- A higher limit, or none, allows whatever a limit does. -/
theorem Eval.Relaxes.of_limit_le (config : Config) {limit limit' : Int} (hlimit : 0 < limit)
    (hlimit' : limit ≤ limit' ∨ limit' = 0) :
    Relaxes (· = .recursionLimit) { config with maxDepth := limit }
      { config with maxDepth := limit' } where
  within depth hdepth := by
    rw [Bool.eq_false_iff, ne_eq, Config.exceeds_eq_true] at hdepth ⊢
    dsimp only at hdepth ⊢
    omega
  depth := .inl rfl
  surplus := .inl rfl

/-- A limit on the depth only cuts evaluation off.  Under a limit every evaluation
finishes.  If it does not end in an error about the limit, then it ends in the same way,
with the same output and the same environments, under every higher limit and under none.
In any case it prints a beginning of what is printed under the other limit. -/
theorem depth_limit_only_cuts (config : Config) {limit limit' : Int} (hlimit : 0 < limit)
    (hlimit' : limit ≤ limit' ∨ limit' = 0) (expr : Value) (scope : Nat) (state : State) :
    (∃ result, Evaluates { config with maxDepth := limit } expr scope state result) ∧
      (0 < limit' →
        ∃ result, Evaluates { config with maxDepth := limit' } expr scope state result) ∧
      ∀ result, Evaluates { config with maxDepth := limit } expr scope state result →
        (result.1.condition? ≠ some .recursionLimit →
          Evaluates { config with maxDepth := limit' } expr scope state result ∧
            ∀ result', Evaluates { config with maxDepth := limit' } expr scope state result' →
              result' = result) ∧
          ∀ result', Evaluates { config with maxDepth := limit' } expr scope state result' →
            result.2.out.text <+: result'.2.out.text := by
  have hrelaxes := Eval.Relaxes.of_limit_le config hlimit hlimit'
  refine ⟨Evaluates.exists_of_limit hlimit expr scope state, ?_, ?_⟩
  · intro hpos
    exact Evaluates.exists_of_limit hpos expr scope state
  · intro result hresult
    refine ⟨?_, fun result' hresult' => hresult.text_prefix hrelaxes hresult'⟩
    intro hcondition
    have hother : Evaluates { config with maxDepth := limit' } expr scope state result := by
      apply hresult.relaxed hrelaxes
      rintro condition hfailed rfl
      exact hcondition hfailed
    exact ⟨hother, fun result' hresult' => hother.unique hresult'⟩

/-- Prints 1, and then 2 twice at a greater depth. -/
def nestedPrint : Value :=
  let print := Value.primitive (.named (utf8 "PRINT"))
  .ofList [.primitive (.named (utf8 "LIST")), .ofList [print, .int 1],
    .ofList [print, .ofList [print, .int 2]]]

/-- A limit of three is beyond the first number, and cuts off the others. -/
theorem depth_limit_only_cuts_print :
    ∃ result result',
      Evaluates ⟨3, false⟩ nestedPrint State.globalScope Interpreter.blank.state result ∧
        result.1.condition? = some .recursionLimit ∧ result.2.out.text = utf8 "1\n" ∧
        Evaluates ⟨0, false⟩ nestedPrint State.globalScope Interpreter.blank.state result' ∧
        result.2.out.text <+: result'.2.out.text := by
  have hcut : Evaluates ⟨3, false⟩ nestedPrint State.globalScope Interpreter.blank.state _ :=
    .of_finished 4 (by decide +kernel)
  have hwhole : Evaluates ⟨0, false⟩ nestedPrint State.globalScope Interpreter.blank.state _ :=
    .of_finished 4 (by decide +kernel)
  refine ⟨_, _, hcut, by decide +kernel, by decide +kernel, hwhole, ?_⟩
  exact ((depth_limit_only_cuts ⟨3, false⟩ (by decide) (.inr rfl) nestedPrint _ _).2.2 _
    hcut).2 _ hwhole

end MiniLisp
