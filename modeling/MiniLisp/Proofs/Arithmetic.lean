import Mathlib.Algebra.BigOperators.Group.List.Basic
import Mathlib.Algebra.Ring.Int.Defs
import MiniLisp.Eval.Operation

/-!
Integer arithmetic.  A primitive computes step by step with words of 64 bits, and every
step may wrap; the result is what exact integers give, wrapped once.  Quotients do not wrap
at all, unless the dividend is the least integer: they are the exact quotient by the product
of all divisors, cut off toward zero.
-/

namespace MiniLisp

/-! ### Wrapping once -/

namespace Operation

/-- Steps that each wrap come to exact steps that wrap at the end. -/
theorem foldl_wraps {step : Int64 → Int64 → Int64} {exact : Int → Int → Int}
    (hstep : ∀ m n, step (.ofInt m) (.ofInt n) = .ofInt (exact m n)) (ns : List Int64)
    (start : Int) :
    ns.foldl step (.ofInt start) = .ofInt ((ns.map Int64.toInt).foldl exact start) := by
  induction ns generalizing start with
  | nil => rfl
  | cons n ns ih =>
      rw [List.map_cons, List.foldl_cons, List.foldl_cons, ← ih, ← hstep, Int64.ofInt_toInt]

theorem foldl_add_wraps (ns : List Int64) :
    ns.foldl (· + ·) 0 = .ofInt (ns.map Int64.toInt).sum := by
  rw [List.sum_eq_foldl]
  exact foldl_wraps (fun m n => (Int64.ofInt_add m n).symm) ns 0

theorem foldl_mul_wraps (ns : List Int64) :
    ns.foldl (· * ·) 1 = .ofInt (ns.map Int64.toInt).prod := by
  rw [List.prod_eq_foldl]
  exact foldl_wraps (fun m n => (Int64.ofInt_mul m n).symm) ns 1

/-- To subtract one after the other is to subtract the sum. -/
theorem foldl_sub (start : Int) (ns : List Int) : ns.foldl (· - ·) start = start - ns.sum := by
  induction ns generalizing start with
  | nil => simp
  | cons n ns ih => rw [List.foldl_cons, ih, List.sum_cons, Int.sub_sub]

theorem difference_single (n : Int64) : difference [n] = some (.ofInt (-n.toInt)) := by
  rw [difference, Int64.ofInt_neg, Int64.ofInt_toInt]

theorem difference_wraps (n : Int64) {rest : List Int64} (hrest : rest ≠ []) :
    difference (n :: rest) = some (.ofInt (n.toInt - (rest.map Int64.toInt).sum)) := by
  have hfold : rest.foldl (· - ·) n = .ofInt (n.toInt - (rest.map Int64.toInt).sum) := by
    rw [← foldl_sub, ← foldl_wraps fun m n => (Int64.ofInt_sub m n).symm, Int64.ofInt_toInt]
  obtain ⟨m, rest, rfl⟩ := List.exists_cons_of_ne_nil hrest
  rw [difference, hfold]
  exact List.cons_ne_nil m rest

/-! ### Division -/

theorem foldl_divideBy_error (reason : Reason) (divisors : List Int64) :
    divisors.foldl divideBy (.error reason) = .error reason := by
  induction divisors with
  | nil => rfl
  | cons divisor divisors ih => exact ih

/-- A divisor that is zero is found wherever it stands. -/
theorem foldl_divideBy_of_mem {divisors : List Int64} (hzero : 0 ∈ divisors)
    (dividend : Int64) :
    divisors.foldl divideBy (.ok dividend) = .error .divisionByZero := by
  induction divisors generalizing dividend with
  | nil => cases hzero
  | cons divisor divisors ih =>
      rw [List.foldl_cons]
      by_cases hdivisor : divisor = 0
      · have hfails : divideBy (.ok dividend) divisor = .error .divisionByZero := if_pos hdivisor
        rw [hfails, foldl_divideBy_error]
      · have hdivides : divideBy (.ok dividend) divisor = .ok (dividend / divisor) :=
          if_neg hdivisor
        rw [hdivides]
        exact ih ((List.mem_cons.mp hzero).resolve_left (Ne.symm hdivisor)) _

theorem foldl_divideBy_of_not_mem {divisors : List Int64} (hzero : 0 ∉ divisors)
    (dividend : Int64) :
    divisors.foldl divideBy (.ok dividend) = .ok (divisors.foldl (· / ·) dividend) := by
  induction divisors generalizing dividend with
  | nil => rfl
  | cons divisor divisors ih =>
      rw [List.mem_cons, not_or] at hzero
      have hdivides : divideBy (.ok dividend) divisor = .ok (dividend / divisor) :=
        if_neg (Ne.symm hzero.1)
      rw [List.foldl_cons, hdivides, ih hzero.2]
      rfl

/-- To divide one after the other, each time toward zero, is to divide by the product. -/
theorem tdiv_tdiv (m n k : Int) : (m.tdiv n).tdiv k = m.tdiv (n * k) := by
  -- Signs move outside of every quotient; what is left are quotients of natural numbers.
  obtain ⟨a, rfl | rfl⟩ := m.eq_nat_or_neg <;> obtain ⟨b, rfl | rfl⟩ := n.eq_nat_or_neg <;>
    obtain ⟨c, rfl | rfl⟩ := k.eq_nat_or_neg <;>
      simp only [Int.neg_tdiv, Int.tdiv_neg, Int.neg_neg, Int.neg_mul, Int.mul_neg,
        ← Int.natCast_mul, ← Int.ofNat_tdiv, Nat.div_div_eq_div_mul]

/-- A quotient of another integer than the least does not wrap, and is another integer than
the least again. -/
theorem toInt_div_of_ne_min {m : Int64} (hmin : m ≠ Int64.minValue) (n : Int64) :
    (m / n).toInt = m.toInt.tdiv n.toInt ∧ m / n ≠ Int64.minValue := by
  have hexact := Int64.toInt_div_of_ne_left m n hmin
  refine ⟨hexact, fun hquotient => hmin ?_⟩
  -- The dividend is no smaller in absolute value, so it would be the least integer too.
  have hle := Int.natAbs_tdiv_le_natAbs m.toInt n.toInt
  rw [← hexact, hquotient, Int64.toInt_minValue] at hle
  have hlow := Int64.le_toInt m
  have hhigh := Int64.toInt_lt m
  apply Int64.toInt_inj.mp
  rw [Int64.toInt_minValue]
  omega

theorem toInt_foldl_div {dividend : Int64} (hmin : dividend ≠ Int64.minValue)
    (divisors : List Int64) :
    (divisors.foldl (· / ·) dividend).toInt =
      dividend.toInt.tdiv (divisors.map Int64.toInt).prod := by
  induction divisors generalizing dividend with
  | nil => simp
  | cons divisor divisors ih =>
      obtain ⟨hexact, hmin'⟩ := toInt_div_of_ne_min hmin divisor
      rw [List.foldl_cons, ih hmin', hexact, tdiv_tdiv, List.map_cons, List.prod_cons]

/-! ### Arguments -/

theorem integers_map_int (callee : Bytes) (ns : List Int64) :
    integers callee (ns.map .int) = .ok ns := by
  induction ns with
  | nil => rfl
  | cons n ns ih =>
      rw [integers] at ih ⊢
      rw [List.map_cons, List.mapM_cons, ih]
      rfl

/-- The first argument that is no integer is a type error. -/
theorem integers_of_mem (callee : Bytes) {arguments : List Value} {value : Value}
    (hmem : value ∈ arguments) (hvalue : ∀ n, value ≠ .int n) :
    ∃ reason, reason.condition = .type ∧ integers callee arguments = .error reason := by
  induction arguments with
  | nil => cases hmem
  | cons argument arguments ih =>
      rw [integers, List.mapM_cons]
      cases hargument : integer callee argument with
      | error reason =>
          refine ⟨reason, ?_, rfl⟩
          cases argument <;> cases hargument <;> rfl
      | ok n =>
          have hint : argument = .int n := by
            cases argument <;> cases hargument
            rfl
          obtain ⟨reason, hreason, hrest⟩ :=
            ih ((List.mem_cons.mp hmem).resolve_left fun heq => hvalue n (heq.trans hint))
          rw [integers] at hrest
          exact ⟨reason, hreason, by rw [hrest]; rfl⟩

end Operation

theorem Value.spineOnto_ofSpine (found items : List Value) {ending : Value}
    (hending : ∀ head tail, ending ≠ .pair head tail) :
    spineOnto found (ofSpine items ending) = (found.reverse ++ items, ending) := by
  induction items generalizing found with
  | nil => cases ending <;> simp_all [ofSpine, spineOnto]
  | cons item items ih =>
      have hrest := ih (item :: found)
      rw [List.reverse_cons, List.append_assoc] at hrest
      exact hrest

theorem Value.toList?_ofList (items : List Value) : (ofList items).toList? = some items := by
  rw [toList?, spine, ofList, spineOnto_ofSpine [] items (by simp [empty])]
  rfl

theorem Arity.admits_atLeast (least n : Nat) :
    (atLeast least).admits n = decide (least ≤ n) := by
  simp [admits, atLeast]

/-! ### The primitives -/

namespace Primitive

/-- Called with arguments, the built-in primitive with a name has an outcome and prints
nothing. -/
def Gives (name : String) (arguments : List Value) (outcome : Outcome) : Prop :=
  ∀ out, (named (utf8 name)).call (.ofList arguments) out = (outcome, out)

/-- Called with integers, the built-in primitive with a name gives an exact result reduced
to the range of 64 bits. -/
def GivesWrapped (name : String) (ns : List Int64) (exact : Int) : Prop :=
  ∃ n : Int64, Gives name (ns.map .int) (.value (.int n)) ∧ n.toInt = exact.bmod (2 ^ 64)

/-- Called with arguments, the built-in primitive with a name fails with a condition. -/
def FailsWith (name : String) (arguments : List Value) (condition : Condition) : Prop :=
  ∃ reason, reason.condition = condition ∧ Gives name arguments (.fail reason)

theorem Gives.unique {name : String} {arguments : List Value} {outcome outcome' : Outcome}
    (hgives : Gives name arguments outcome) (hgives' : Gives name arguments outcome') :
    outcome = outcome' :=
  congrArg Prod.fst ((hgives .unlimited).symm.trans (hgives' .unlimited))

/-- The built-in primitive with a name takes at least so many arguments, and computes with
the integers that they are. -/
structure Computes (name : String) (least : Nat) (compute : List Int64 → Outcome) : Prop where
  arity : (named (utf8 name)).arity = .atLeast least
  run (arguments : List Value) (out : Sink) : (named (utf8 name)).operation.run arguments out =
    (Operation.arithmetic (utf8 name) arguments compute, out)

theorem computes_sum : Computes "+" 0 fun ns => .value (.int (ns.foldl (· + ·) 0)) := by
  have hnamed : named (utf8 "+") = ⟨utf8 "+", .atLeast 0, .add⟩ := by decide +kernel
  constructor <;> rw [hnamed]
  exact fun _ _ => rfl

theorem computes_product : Computes "*" 0 fun ns => .value (.int (ns.foldl (· * ·) 1)) := by
  have hnamed : named (utf8 "*") = ⟨utf8 "*", .atLeast 0, .multiply⟩ := by decide +kernel
  constructor <;> rw [hnamed]
  exact fun _ _ => rfl

theorem computes_difference : Computes "-" 1 fun ns =>
    match Operation.difference ns with
    | some n => .value (.int n)
    | none => .crashed := by
  have hnamed : named (utf8 "-") = ⟨utf8 "-", .atLeast 1, .subtract⟩ := by decide +kernel
  constructor <;> rw [hnamed]
  exact fun _ _ => rfl

theorem computes_quotient : Computes "/" 2 fun ns =>
    match Operation.quotient ns with
    | some (.ok n) => .value (.int n)
    | some (.error reason) => .fail reason
    | none => .crashed := by
  have hnamed : named (utf8 "/") = ⟨utf8 "/", .atLeast 2, .divide⟩ := by decide +kernel
  constructor <;> rw [hnamed]
  exact fun _ _ => rfl

theorem Computes.call {name : String} {least : Nat} {compute : List Int64 → Outcome}
    (hcomputes : Computes name least compute) {arguments : List Value}
    (hleast : least ≤ arguments.length) :
    Gives name arguments (Operation.arithmetic (utf8 name) arguments compute) := by
  intro out
  have hadmits : (named (utf8 name)).arity.admits arguments.length = true := by
    rw [hcomputes.arity, Arity.admits_atLeast, decide_eq_true hleast]
  rw [Primitive.call, checkedArguments, Value.toList?_ofList]
  simp only [hadmits, ↓reduceIte]
  exact hcomputes.run arguments out

theorem Computes.gives {name : String} {least : Nat} {compute : List Int64 → Outcome}
    (hcomputes : Computes name least compute) {ns : List Int64} (hleast : least ≤ ns.length) :
    Gives name (ns.map .int) (compute ns) := by
  have hlength : least ≤ (ns.map Value.int).length := by rwa [List.length_map]
  have hcall := hcomputes.call hlength
  rwa [Operation.arithmetic, Operation.integers_map_int] at hcall

/-- With as many arguments as it takes, one that is no integer is a type error whatever the
others are. -/
theorem Computes.fails {name : String} {least : Nat} {compute : List Int64 → Outcome}
    (hcomputes : Computes name least compute) {arguments : List Value}
    (hleast : least ≤ arguments.length) {value : Value} (hmem : value ∈ arguments)
    (hvalue : ∀ n, value ≠ .int n) : FailsWith name arguments .type := by
  obtain ⟨reason, hreason, hintegers⟩ := Operation.integers_of_mem (utf8 name) hmem hvalue
  have hcall := hcomputes.call hleast
  rw [Operation.arithmetic, hintegers] at hcall
  exact ⟨reason, hreason, hcall⟩

/-! ### Exact results -/

theorem gives_sum (ns : List Int64) :
    Gives "+" (ns.map .int) (.value (.int (.ofInt (ns.map Int64.toInt).sum))) := by
  rw [← Operation.foldl_add_wraps]
  exact computes_sum.gives (Nat.zero_le _)

theorem gives_product (ns : List Int64) :
    Gives "*" (ns.map .int) (.value (.int (.ofInt (ns.map Int64.toInt).prod))) := by
  rw [← Operation.foldl_mul_wraps]
  exact computes_product.gives (Nat.zero_le _)

theorem gives_difference {n m : Int64} {rest : List Int64}
    (hdifference : Operation.difference (n :: rest) = some m) :
    Gives "-" ((n :: rest).map .int) (.value (.int m)) := by
  have hleast : 1 ≤ (n :: rest).length := Nat.le_add_left 1 rest.length
  have hgives := computes_difference.gives hleast
  rwa [hdifference] at hgives

theorem gives_quotient (n : Int64) {rest : List Int64} (hrest : rest ≠ []) :
    Gives "/" ((n :: rest).map .int)
      (.ofExcept ((rest.foldl Operation.divideBy (.ok n)).map .int)) := by
  have hleast : 2 ≤ (n :: rest).length := Nat.succ_le_succ (List.length_pos_of_ne_nil hrest)
  have hgives := computes_quotient.gives hleast
  rw [Operation.quotient] at hgives
  cases hresult : rest.foldl Operation.divideBy (.ok n) with
  | ok quotient => rwa [hresult] at hgives
  | error reason => rwa [hresult] at hgives

theorem givesWrapped_ofInt {name : String} {ns : List Int64} {exact : Int}
    (hgives : Gives name (ns.map .int) (.value (.int (.ofInt exact)))) :
    GivesWrapped name ns exact :=
  ⟨_, hgives, Int64.toInt_ofInt⟩

/-- A sum or product is the same in any order. -/
theorem gives_perm {name : String} (hname : name ∈ ["+", "*"]) {ns ms : List Int64}
    (hperm : ns.Perm ms) (outcome : Outcome) :
    Gives name (ns.map .int) outcome ↔ Gives name (ms.map .int) outcome := by
  have hsame : ∃ common, Gives name (ns.map .int) common ∧ Gives name (ms.map .int) common := by
    simp only [List.mem_cons, List.not_mem_nil, or_false] at hname
    rcases hname with rfl | rfl
    · refine ⟨_, gives_sum ns, ?_⟩
      rw [(hperm.map Int64.toInt).sum_eq]
      exact gives_sum ms
    · refine ⟨_, gives_product ns, ?_⟩
      rw [(hperm.map Int64.toInt).prod_eq]
      exact gives_product ms
  obtain ⟨common, hns, hms⟩ := hsame
  constructor
  · intro hgives
    rwa [hgives.unique hns]
  · intro hgives
    rwa [hgives.unique hms]

theorem quotient_fails_iff (n : Int64) {rest : List Int64} (hrest : rest ≠ []) :
    FailsWith "/" ((n :: rest).map .int) .arithmetic ↔ 0 ∈ rest := by
  have hgives := gives_quotient n hrest
  constructor
  · rintro ⟨reason, _, hfails⟩
    by_contra hzero
    rw [Operation.foldl_divideBy_of_not_mem hzero] at hgives
    cases hgives.unique hfails
  · intro hzero
    rw [Operation.foldl_divideBy_of_mem hzero] at hgives
    exact ⟨_, rfl, hgives⟩

/-- Without a zero among the divisors there is a quotient, and it is exact unless the
dividend is the least integer. -/
theorem gives_exact_quotient (n : Int64) {rest : List Int64} (hrest : rest ≠ [])
    (hzero : 0 ∉ rest) :
    ∃ quotient : Int64, Gives "/" ((n :: rest).map .int) (.value (.int quotient)) ∧
      (n ≠ Int64.minValue →
        quotient.toInt = n.toInt.tdiv (rest.map Int64.toInt).prod) := by
  have hgives := gives_quotient n hrest
  rw [Operation.foldl_divideBy_of_not_mem hzero] at hgives
  exact ⟨_, hgives, fun hmin => Operation.toInt_foldl_div hmin rest⟩

/-- Integer arithmetic is exact modulo 2⁶⁴.  Sums, products and differences are the exact
ones, reduced to the range of 64 bits; sums and products do not depend on the order.  A
quotient fails exactly if some divisor is zero, and is else the exact quotient by the product
of the divisors, toward zero, unless the dividend is the least integer.  An argument that is
no integer is a type error, also behind a divisor that is zero. -/
theorem integer_arithmetic_exact :
    (∀ ns : List Int64, GivesWrapped "+" ns (ns.map Int64.toInt).sum ∧
        GivesWrapped "*" ns (ns.map Int64.toInt).prod) ∧
      (∀ name ∈ ["+", "*"], ∀ ns ms : List Int64, ns.Perm ms → ∀ outcome,
        Gives name (ns.map .int) outcome ↔ Gives name (ms.map .int) outcome) ∧
      (∀ n : Int64, GivesWrapped "-" [n] (-n.toInt)) ∧
      (∀ (n : Int64) (rest : List Int64), rest ≠ [] →
        GivesWrapped "-" (n :: rest) (n.toInt - (rest.map Int64.toInt).sum)) ∧
      (∀ (n : Int64) (rest : List Int64), rest ≠ [] →
        (FailsWith "/" ((n :: rest).map .int) .arithmetic ↔ 0 ∈ rest) ∧
          (0 ∉ rest → ∃ quotient : Int64,
            Gives "/" ((n :: rest).map .int) (.value (.int quotient)) ∧
              (n ≠ Int64.minValue →
                quotient.toInt = n.toInt.tdiv (rest.map Int64.toInt).prod))) ∧
      ∀ name ∈ ["+", "-", "*", "/"], ∀ arguments : List Value,
        (named (utf8 name)).arity.admits arguments.length = true →
          (∃ value ∈ arguments, ∀ n, value ≠ .int n) → FailsWith name arguments .type := by
  refine ⟨?_, ?_, ?_, ?_, ?_, ?_⟩
  · intro ns
    exact ⟨givesWrapped_ofInt (gives_sum ns), givesWrapped_ofInt (gives_product ns)⟩
  · intro name hname ns ms hperm outcome
    exact gives_perm hname hperm outcome
  · intro n
    exact givesWrapped_ofInt (gives_difference (Operation.difference_single n))
  · intro n rest hrest
    exact givesWrapped_ofInt (gives_difference (Operation.difference_wraps n hrest))
  · intro n rest hrest
    exact ⟨quotient_fails_iff n hrest, gives_exact_quotient n hrest⟩
  · rintro name hname arguments hadmits ⟨value, hmem, hvalue⟩
    have hfails : ∀ {least : Nat} {compute : List Int64 → Outcome},
        Computes name least compute → FailsWith name arguments .type := by
      intro least compute hcomputes
      rw [hcomputes.arity, Arity.admits_atLeast, decide_eq_true_eq] at hadmits
      exact hcomputes.fails hadmits hmem hvalue
    simp only [List.mem_cons, List.not_mem_nil, or_false] at hname
    rcases hname with rfl | rfl | rfl | rfl
    · exact hfails computes_sum
    · exact hfails computes_difference
    · exact hfails computes_product
    · exact hfails computes_quotient

/-- A text behind a divisor that is zero is a type error, and with integers alone the zero
is found behind other divisors. -/
theorem integer_arithmetic_exact_zero :
    FailsWith "/" [.int 7, .int 0, .text (utf8 "a")] .type ∧
      FailsWith "/" [.int 7, .int 2, .int 0] .arithmetic ∧
      ∃ quotient : Int64, Gives "/" [.int (-7), .int 2, .int (-2)] (.value (.int quotient)) ∧
        quotient.toInt = 1 := by
  obtain ⟨_, _, _, _, hquotient, htype⟩ := integer_arithmetic_exact
  refine ⟨?_, ?_, ?_⟩
  · exact htype "/" (by decide) [.int 7, .int 0, .text (utf8 "a")] (by decide +kernel)
      ⟨.text (utf8 "a"), by simp, by simp⟩
  · exact (hquotient 7 [2, 0] (by decide)).1.mpr (by decide)
  · obtain ⟨quotient, hgives, hexact⟩ := (hquotient (-7) [2, -2] (by decide)).2 (by decide)
    exact ⟨quotient, hgives, (hexact (by decide)).trans (by decide)⟩

/-- The one quotient that wraps. -/
example : (named (utf8 "/")).call (.ofList [.int Int64.minValue, .int (-1)]) .unlimited =
    (.value (.int Int64.minValue), .unlimited) := by
  decide +kernel

end Primitive

end MiniLisp
