import MiniLisp.Failure

/-!
Views of lists.  A value is taken apart into its spine at once, by counting its pairs or by a
walk from item to item, and put together from its spine or by a builder that links a new pair
behind the last one.  All of these speak of the same items in the same order, on proper and on
improper lists.
-/

namespace MiniLisp

namespace Value

/-! ### Spines -/

theorem spineOnto_eq (found : List Value) (value : Value) :
    value.spineOnto found = (found.reverse ++ value.spine.1, value.spine.2) := by
  induction value generalizing found with
  | pair head tail ihhead ihtail =>
      rw [spine, spineOnto, spineOnto, ihtail (head :: found), ihtail [head]]
      simp
  | _ => simp [spine, spineOnto]

theorem spine_pair (head tail : Value) :
    (pair head tail).spine = (head :: tail.spine.1, tail.spine.2) :=
  spineOnto_eq [head] tail

/-- What is left behind the last pair is no pair. -/
theorem ending_ne_pair (value head tail : Value) : value.spine.2 ≠ pair head tail := by
  induction value with
  | pair first rest ihfirst ihrest =>
      rw [spine_pair]
      exact ihrest
  | _ => simp [spine, spineOnto]

/-- A value is the chain of its items in front of its ending. -/
theorem ofSpine_spine (value : Value) : ofSpine value.spine.1 value.spine.2 = value := by
  induction value with
  | pair head tail ihhead ihtail =>
      rw [spine_pair]
      exact congrArg (pair head) ihtail
  | _ => rfl

theorem lengthFrom_eq (count : Nat) (value : Value) :
    value.lengthFrom count = count + value.spine.1.length := by
  induction value generalizing count with
  | pair head tail ihhead ihtail =>
      rw [lengthFrom, ihtail, spine_pair, List.length_cons]
      omega
  | _ => rfl

theorem length_eq (value : Value) : value.length = value.spine.1.length := by
  rw [length, lengthFrom_eq, Nat.zero_add]

theorem toList?_eq (value : Value) :
    value.toList? = if value.spine.2 = empty then some value.spine.1 else none := by
  simp only [toList?, isEmpty_iff]

end Value

namespace ListIterator

/-! ### Walks -/

def after (it : ListIterator) : Nat → ListIterator
  | 0 => it
  | steps + 1 => (it.after steps).next.2

theorem next_ending (value : Value) {ending : Value}
    (hending : ∀ head tail, ending ≠ .pair head tail) :
    (ListIterator.mk value ending none).next =
      (false, ⟨.absent, ending, if ending = .empty then none else some ending⟩) := by
  simp only [next, ← Value.isEmpty_iff]

/-- Where a walk along a list is after a number of steps: the items passed are gone from the
rest, and only a step beyond the last item finds a fault. -/
structure Passed (items : List Value) (ending : Value) (steps : Nat) (it : ListIterator) :
    Prop where
  rest : it.rest = .ofSpine (items.drop steps) ending
  fault : it.fault = if items.length < steps ∧ ending ≠ .empty then some ending else none
  value : items.length < steps → it.value = .absent

section

variable {items : List Value} {ending : Value} {steps : Nat} {it : ListIterator}

/-- What a step gives, and where it leads. -/
theorem Passed.next_eq (hpassed : Passed items ending steps it)
    (hending : ∀ head tail, ending ≠ .pair head tail) :
    it.next = (decide (steps < items.length),
      ⟨items[steps]?.getD .absent, .ofSpine (items.drop (steps + 1)) ending,
        if items.length ≤ steps ∧ ending ≠ .empty then some ending else none⟩) := by
  obtain ⟨value, rest, fault⟩ := it
  obtain ⟨rfl, rfl, hvalue⟩ := hpassed
  by_cases hmore : steps < items.length
  · have hrest : Value.ofSpine (items.drop steps) ending =
        .pair items[steps] (.ofSpine (items.drop (steps + 1)) ending) := by
      rw [List.drop_eq_getElem_cons hmore]
      rfl
    rw [hrest, if_neg (by omega), if_neg (by omega), List.getElem?_eq_getElem hmore,
      decide_eq_true hmore]
    rfl
  · have hrest : ∀ n, steps ≤ n → Value.ofSpine (items.drop n) ending = ending := by
      intro n hn
      rw [List.drop_of_length_le (by omega)]
      rfl
    rw [hrest steps (by omega), hrest (steps + 1) (by omega), List.getElem?_eq_none (by omega),
      decide_eq_false hmore]
    by_cases hfault : items.length < steps ∧ ending ≠ .empty
    · -- The fault was found before, and the walk stays where it is.
      obtain rfl : value = .absent := hvalue hfault.1
      rw [if_pos hfault, if_pos ⟨by omega, hfault.2⟩]
      rfl
    · rw [if_neg hfault, next_ending value hending]
      by_cases hempty : ending = .empty
      · simp [hempty]
      · simp [hempty, Nat.le_of_not_lt hmore]

theorem Passed.next (hpassed : Passed items ending steps it)
    (hending : ∀ head tail, ending ≠ .pair head tail) :
    Passed items ending (steps + 1) it.next.2 := by
  rw [hpassed.next_eq hending]
  refine ⟨rfl, ?_, fun hbeyond => ?_⟩
  · simp only [Nat.lt_succ_iff]
  · simp [List.getElem?_eq_none (Nat.le_of_lt_succ hbeyond)]

end

theorem passed_after (value : Value) (steps : Nat) :
    Passed value.spine.1 value.spine.2 steps ((ofValue value).after steps) := by
  induction steps with
  | zero => exact ⟨value.ofSpine_spine.symm, by simp [after, ofValue], by simp⟩
  | succ steps ih => exact ih.next value.ending_ne_pair

end ListIterator

namespace ListBuilder

/-! ### Builders -/

/-- A builder holds items: its pairs are those of the items in order, each followed by the
next one, and it knows the first and the last of them. -/
structure Holds (builder : ListBuilder) (items : List Value) : Prop where
  size : builder.cells.size = items.length
  cells : ∀ place : Nat, builder.cells[place]? = items[place]?.map fun item =>
    ⟨item, if place + 1 < items.length then some (place + 1) else none⟩
  front : builder.front = if items = [] then none else some 0
  back : builder.back = if items = [] then none else some (items.length - 1)

section

variable {builder : ListBuilder} {items : List Value}

theorem holds_empty : Holds empty [] :=
  ⟨rfl, by simp [empty], rfl, rfl⟩

theorem Holds.add_first (hholds : Holds builder []) (item : Value) :
    Holds (builder.add item) [item] := by
  have hback : builder.back = none := hholds.back
  have hsize : builder.cells.size = 0 := hholds.size
  refine ⟨?_, fun place => ?_, ?_, ?_⟩
  · simp [ListBuilder.add, hback, hsize]
  · simp only [ListBuilder.add, hback, Array.getElem?_push, hsize, hholds.cells]
    cases place <;> simp
  · simp [ListBuilder.add, hback, hsize]
  · simp [ListBuilder.add, hback, hsize]

theorem Holds.add_later (hholds : Holds builder items) (hitems : items ≠ []) (item : Value) :
    Holds (builder.add item) (items ++ [item]) := by
  have hback : builder.back = some (items.length - 1) := by
    rw [hholds.back, if_neg hitems]
  have hlength := List.length_pos_iff.mpr hitems
  refine ⟨?_, fun place => ?_, ?_, ?_⟩
  · simp [ListBuilder.add, hback, hholds.size]
  · simp only [ListBuilder.add, hback, Array.getElem?_push, Array.size_modify,
      Array.getElem?_modify, hholds.size, hholds.cells]
    by_cases hplace : place < items.length
    · rw [List.getElem?_append_left hplace, List.getElem?_eq_getElem hplace, if_neg (by omega)]
      by_cases hlast : items.length - 1 = place
      · -- The pair that was the last is now followed by the new one.
        have hnext : items.length = place + 1 := by omega
        simp [hnext]
      · have hnext : place + 1 < items.length := by omega
        simp [hlast, hnext, Nat.lt_succ_of_lt hnext]
    · by_cases hnew : place = items.length
      · simp [hnew]
      · have hnone : (items ++ [item])[place]? = none := by
          apply List.getElem?_eq_none
          rw [List.length_append, List.length_singleton]
          omega
        rw [if_neg hnew, if_neg (by omega), List.getElem?_eq_none (by omega), hnone]
        rfl
  · simp [ListBuilder.add, hback, hholds.front, hitems]
  · simp [ListBuilder.add, hback, hholds.size]

/-- An item that is added comes last. -/
theorem Holds.add (hholds : Holds builder items) (item : Value) :
    Holds (builder.add item) (items ++ [item]) := by
  by_cases hitems : items = []
  · subst hitems
    exact hholds.add_first item
  · exact hholds.add_later hitems item

theorem Holds.append (hholds : Holds builder items) (more : List Value) :
    Holds (builder.append more) (items ++ more) := by
  induction more generalizing builder items with
  | nil => simpa [ListBuilder.append] using hholds
  | cons item more ih => simpa [ListBuilder.append] using ih (hholds.add item)

theorem Holds.listFrom (hholds : Holds builder items) (place : Nat) :
    builder.listFrom place = .ofList (items.drop place) := by
  fun_induction ListBuilder.listFrom builder place with
  | case1 place hcell =>
      rw [hholds.cells, Option.map_eq_none_iff, List.getElem?_eq_none_iff] at hcell
      rw [List.drop_of_length_le hcell]
      rfl
  | case2 place cell hcell hnext =>
      rw [hholds.cells, Option.map_eq_some_iff] at hcell
      obtain ⟨item, hitem, rfl⟩ := hcell
      obtain ⟨hplace, rfl⟩ := List.getElem?_eq_some_iff.mp hitem
      rw [List.drop_eq_getElem_cons hplace, List.drop_of_length_le (by simpa using hnext)]
      rfl
  | case3 place cell hcell next hnext hlater ih =>
      rw [hholds.cells, Option.map_eq_some_iff] at hcell
      obtain ⟨item, hitem, rfl⟩ := hcell
      obtain ⟨hplace, rfl⟩ := List.getElem?_eq_some_iff.mp hitem
      obtain ⟨-, rfl⟩ := by simpa using hnext
      rw [ih, List.drop_eq_getElem_cons hplace]
      rfl

theorem Holds.list (hholds : Holds builder items) : builder.list = .ofList items := by
  rw [ListBuilder.list, hholds.front]
  by_cases hitems : items = []
  · rw [if_pos hitems, hitems]
    rfl
  · rw [if_neg hitems]
    exact hholds.listFrom 0

theorem Holds.appends (hholds : Holds builder items) (appends : List (List Value)) :
    Holds (appends.foldl ListBuilder.append builder) (items ++ appends.flatten) := by
  induction appends generalizing builder items with
  | nil => simpa using hholds
  | cons more appends ih => simpa using ih (hholds.append more)

end

end ListBuilder

namespace Value

/-- All views of lists agree.  Take a value apart into its items and its ending: the chain of
the items in front of the ending is the value again, there are as many items as pairs, and the
value is a proper list of the items if and only if the ending is the empty list.  A walk along
the value finds, call by call, exactly the items in order and then nothing any more; behind
the last item it fails, for a type error, if and only if the value is no proper list.  And a
builder to which items were appended in any portions holds the proper list of them all. -/
theorem list_views_agree (value : Value) (appends : List (List Value)) :
    let items := value.spine.1
    let ending := value.spine.2
    ofSpine items ending = value ∧
      value.length = items.length ∧
      value.toList? = (if ending = empty then some items else none) ∧
      (∀ calls,
        let answer := ((ListIterator.ofValue value).after calls).next
        answer.1 = decide (calls < items.length) ∧
          answer.2.value = items[calls]?.getD .absent ∧
          answer.2.failure? = if items.length ≤ calls ∧ ending ≠ empty
            then some (.of (.improperList ending)) else none) ∧
      (Failure.of (.improperList ending)).hasCondition Condition.type.tag = true ∧
      (appends.foldl ListBuilder.append .empty).list = ofList appends.flatten := by
  intro items ending
  refine ⟨value.ofSpine_spine, value.length_eq, value.toList?_eq, fun calls => ?_, ?_,
    (ListBuilder.holds_empty.appends appends).list⟩
  · have hpassed := ListIterator.passed_after value calls
    have hnext := hpassed.next_eq value.ending_ne_pair
    rw [hnext]
    exact ⟨rfl, rfl, apply_ite (Option.map fun ending => Failure.of (.improperList ending)) _ _ _⟩
  · simp [Failure.hasCondition, Failure.conditionTag, Failure.of, Failure.signal?, Signal.of,
      Reason.condition]

end Value

end MiniLisp
