import MiniLisp.Proofs.Record
import MiniLisp.Proofs.SessionRun

/-!
Freedom from crashes.  A program starts from source text and the primitives, and it makes
pairs and functions of these.  So it never meets a value that is not there, nor a function
without its environment, and under a limit on the depth every text that is evaluated has a
value or fails with an error.
-/

namespace MiniLisp

namespace Value

/-- A value that a program can make, where there are environments with the numbers below
`scopes`: a symbol, an integer, a text, a primitive, a function from one of the environments,
or a pair of such values. -/
def Genuine (scopes : Nat) : Value → Prop
  | .symbol _ | .int _ | .text _ => True
  | .pair head tail => head.Genuine scopes ∧ tail.Genuine scopes
  | .primitive p => p ∈ Primitive.builtins
  | .closure _ parameters body scope =>
      parameters.Genuine scopes ∧ body.Genuine scopes ∧ ∃ number < scopes, scope = some number
  | _ => False

theorem Genuine.mono {scopes scopes' : Nat} {value : Value} (hgenuine : value.Genuine scopes)
    (hle : scopes ≤ scopes') : value.Genuine scopes' := by
  induction value with
  | pair head tail ihead itail => exact ⟨ihead hgenuine.1, itail hgenuine.2⟩
  | closure name parameters body scope iparameters ibody =>
      obtain ⟨hparameters, hbody, number, hnumber, hscope⟩ := hgenuine
      exact ⟨iparameters hparameters, ibody hbody, number, Nat.lt_of_lt_of_le hnumber hle,
        hscope⟩
  | _ => exact hgenuine

theorem inherited_genuine : Inherited Genuine where
  mono := Genuine.mono
  symbol _ _ := trivial
  int _ _ := trivial
  text _ _ := trivial
  pair := Iff.rfl
  closure _ _ _ hparameters hbody hscope := ⟨hparameters, hbody, _, hscope, rfl⟩
  body hclosure := hclosure.2.1

end Value

namespace Interpreter

/-- A new interpreter binds genuine values. -/
theorem genuine_new {settings : List Setting} {it : Interpreter}
    (hnew : new settings = .ok it) : it.state.Holds Value.Genuine := by
  refine State.Holds.single (envs_new hnew) ?_
  intro binding hmem
  obtain ⟨primitive, hbuiltin, hvalue⟩ := mem_builtinEnv hmem
  rw [hvalue]
  exact hbuiltin

def Request.isText : Request → Bool
  | .evalText _ | .load _ _ => true
  | _ => false

/-- A text has a value or fails with an error. -/
theorem Steady.perform {it : Interpreter} (hsteady : it.Steady) {request : Request}
    (htext : request.isText = true) :
    ((∃ value, (it.perform request).1 = .value value) ∨
      ∃ failure, (it.perform request).1 = .failed failure) ∧
      (it.perform request).2.Steady := by
  cases request with
  | evalText text =>
      rw [Interpreter.perform, evalText]
      split
      · next expr hread => exact hsteady.eval ((plain_read hread).sound _)
      · next failure _ => exact ⟨.inr ⟨failure, rfl⟩, hsteady⟩
  | load name source =>
      rw [Interpreter.perform, load]
      split
      · exact ⟨.inr ⟨noReader, rfl⟩, hsteady⟩
      · split
        · next exprs hread =>
            exact hsteady.evalAll (fun _ _ hit => hit) (Reader.plain_readProgram hread) .empty
        · next failure _ => exact ⟨.inr ⟨failure, rfl⟩, hsteady⟩
  | _ => cases htext

/-- So do texts one after the other. -/
theorem Steady.performAll {it : Interpreter} (hsteady : it.Steady) {requests : List Request}
    (htexts : ∀ request ∈ requests, request.isText = true) :
    ∀ outcome ∈ (it.performAll requests).1,
      (∃ value, outcome = .value value) ∨ ∃ failure, outcome = .failed failure := by
  induction requests generalizing it with
  | nil => exact fun outcome hmem => absurd hmem List.not_mem_nil
  | cons request rest ih =>
      rw [List.forall_mem_cons] at htexts
      obtain ⟨hfirst, hnext⟩ := hsteady.perform htexts.1
      exact List.forall_mem_cons.mpr ⟨hfirst, ih hnext htexts.2⟩

/-- Evaluating source text never crashes.  Whatever texts a new interpreter with a limit on
the depth gets one after the other, every one of them has a value or fails with an error.
The values are genuine, and so are all that evaluations on the way give as results, bind in
environments and apply functions to, and those that the environments bind in the end. -/
theorem text_evaluation_never_crashes {settings : List Setting} {it : Interpreter}
    (hnew : new settings = .ok it) (hlimit : 0 < it.config.maxDepth)
    {requests : List Request} (htexts : ∀ request ∈ requests, request.isText = true) :
    let results := it.performAll requests
    let scopes := results.2.state.envs.size
    (∀ outcome ∈ results.1, (∃ value, outcome = .value value ∧ value.Genuine scopes) ∨
        ∃ failure, outcome = .failed failure) ∧
      (∀ event ∈ it.recordAll requests, event.Holds Value.Genuine scopes) ∧
      results.2.state.Holds Value.Genuine := by
  intro results scopes
  have hsteady := steady_new hnew hlimit
  have hrequests : ∀ request ∈ requests, request.Holds Value.Genuine it.state.envs.size := by
    intro request hmem
    have htext := htexts request hmem
    cases request with
    | evalText text => trivial
    | load name source => trivial
    | _ => cases htext
  have hkept := kept_performAll Value.inherited_genuine (genuine_new hnew) hsteady.global
    hrequests
  refine ⟨?_, hkept.events, hkept.state⟩
  intro outcome hmem
  rcases hsteady.performAll htexts outcome hmem with ⟨value, rfl⟩ | ⟨failure, rfl⟩
  · exact .inl ⟨value, rfl, hkept.outcomes value hmem⟩
  · exact .inr ⟨failure, rfl⟩

/-- A text whose value is a pair of functions, one of them from the environment of a call, and
a text that applies the latter to an argument too many. -/
def functionTexts : List Request :=
  [.load (utf8 "f.lisp") (.ofBytes (utf8 "(defun f (x) (defun g () x) g) (cons (f 7) first)")),
    .evalText (utf8 "((f 7) 8)")]

theorem text_evaluation_never_crashes_functions :
    let results := tokenInterpreter.performAll functionTexts
    (results.1.map fun outcome =>
        match outcome with
        | .value _ => true
        | _ => false) = [true, false] ∧
      ∀ outcome ∈ results.1,
        (∃ value, outcome = .value value ∧ value.Genuine results.2.state.envs.size) ∨
          ∃ failure, outcome = .failed failure := by
  obtain ⟨houtcomes, _⟩ := text_evaluation_never_crashes
    (show new [.reader (some .tokens)] = .ok tokenInterpreter from rfl) (by decide)
    (show ∀ request ∈ functionTexts, request.isText = true by decide)
  exact ⟨by decide +kernel, houtcomes⟩

end Interpreter

end MiniLisp
