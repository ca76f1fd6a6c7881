import MiniLisp.Interning
import MiniLisp.Value

/-!
Instances.  A table runs its constructor once for every key, when the key is first used, and
gives out what was made then ever after.  For symbols, integers and texts the instances are
numbers, and the small integers are found in a cache as well; whatever was interned before, two
instances are the same exactly if they are those of equal values, so that values may be
compared in place of their instances.
-/

namespace MiniLisp

namespace Table

variable {κ ν σ : Type} [DecidableEq κ]

/-! ### One key -/

theorem find?_cons (key : κ) (made : ν) (entries : List (κ × ν)) (other : κ) :
    (Table.mk ((key, made) :: entries)).find? other =
      if other = key then some made else (Table.mk entries).find? other := by
  by_cases hother : other = key
  · simp [find?, hother]
  · simp [find?, hother, Ne.symm hother]

theorem intern_of_some {make : κ → σ → ν × σ} {key : κ} {table : Table κ ν} {found : ν}
    (hfound : table.find? key = some found) (state : σ) :
    table.intern make key state = (found, table, state) := by
  rw [intern, hfound]

theorem intern_of_none {make : κ → σ → ν × σ} {key : κ} {table : Table κ ν}
    (hnone : table.find? key = none) (state : σ) :
    table.intern make key state =
      ((make key state).1, ⟨(key, (make key state).1) :: table.entries⟩, (make key state).2) := by
  rw [intern, hnone]

/-! ### Many keys -/

/-- What comes of interning keys: their instances, the table and the state of the
constructor. -/
structure Interned (κ ν σ : Type) where
  instances : List ν
  table : Table κ ν
  state : σ

def internAll (make : κ → σ → ν × σ) : List κ → Table κ ν → σ → Interned κ ν σ
  | [], table, state => ⟨[], table, state⟩
  | key :: keys, table, state =>
      let (found, table, state) := table.intern make key state
      let later := internAll make keys table state
      ⟨found :: later.instances, later.table, later.state⟩

/-- A constructor that also records every key that it is run for, with what it made. -/
def recording (make : κ → σ → ν × σ) (key : κ) (state : σ × List (κ × ν)) :
    ν × σ × List (κ × ν) :=
  ((make key state.1).1, (make key state.1).2, state.2 ++ [(key, (make key state.1).1)])

/-- The record changes nothing. -/
theorem internAll_recording (make : κ → σ → ν × σ) (keys : List κ) (table : Table κ ν)
    (state : σ) (record : List (κ × ν)) :
    (internAll make keys table state).instances =
        (internAll (recording make) keys table (state, record)).instances ∧
      (internAll make keys table state).state =
        (internAll (recording make) keys table (state, record)).state.1 := by
  induction keys generalizing table state record with
  | nil => exact ⟨rfl, rfl⟩
  | cons key keys ih =>
      cases hkey : table.find? key with
      | some found =>
          obtain ⟨hinstances, hstate⟩ := ih table state record
          simp only [internAll, intern_of_some hkey]
          exact ⟨congrArg (found :: ·) hinstances, hstate⟩
      | none =>
          obtain ⟨hinstances, hstate⟩ := ih ⟨(key, (make key state).1) :: table.entries⟩
            (make key state).2 (record ++ [(key, (make key state).1)])
          simp only [internAll, intern_of_none hkey]
          exact ⟨congrArg ((make key state).1 :: ·) hinstances, hstate⟩

/-- A table and the record of its constructor after the use of some keys: the constructor was
run for each of them when it was first used, and the table finds what was made. -/
structure Tracks (used : List κ) (table : Table κ ν) (record : List (κ × ν)) : Prop where
  keys : record.map Prod.fst = used.eraseDups
  finds : ∀ key, table.find? key = record.lookup key

section

variable {used : List κ} {table : Table κ ν} {record : List (κ × ν)} {key : κ}

theorem tracks_empty : Tracks ([] : List κ) (empty : Table κ ν) [] :=
  ⟨rfl, fun _ => rfl⟩

theorem Tracks.find?_eq_none_iff (htracks : Tracks used table record) :
    table.find? key = none ↔ key ∉ used := by
  rw [htracks.finds, ← List.mem_eraseDups, ← htracks.keys, List.lookup_eq_none_iff]
  simp only [bne_iff_ne, List.mem_map, not_exists, not_and]
  exact forall_congr' fun entry => imp_congr_right fun _ => ne_comm

theorem eraseDups_concat (used : List κ) (key : κ) :
    (used ++ [key]).eraseDups = if key ∈ used then used.eraseDups else used.eraseDups ++ [key] := by
  rw [List.eraseDups_append]
  by_cases hkey : key ∈ used
  · simp [hkey, List.removeAll]
  · simp [hkey, List.removeAll, List.eraseDups_cons]

/-- A key that was used before is found, and nothing changes. -/
theorem Tracks.use_again (htracks : Tracks used table record) {found : ν}
    (hfound : table.find? key = some found) : Tracks (used ++ [key]) table record := by
  have hused : key ∈ used := by
    apply Decidable.of_not_not
    rw [← htracks.find?_eq_none_iff, hfound]
    simp
  refine ⟨?_, htracks.finds⟩
  rw [eraseDups_concat, if_pos hused]
  exact htracks.keys

/-- For a new key the constructor is run. -/
theorem Tracks.use_first (htracks : Tracks used table record)
    (hnone : table.find? key = none) (made : ν) :
    Tracks (used ++ [key]) ⟨(key, made) :: table.entries⟩ (record ++ [(key, made)]) := by
  have hnew := htracks.find?_eq_none_iff.mp hnone
  refine ⟨?_, fun other => ?_⟩
  · rw [eraseDups_concat, if_neg hnew, List.map_append, htracks.keys]
    rfl
  · rw [find?_cons, List.lookup_append, ← htracks.finds]
    by_cases hother : other = key
    · rw [if_pos hother, hother, hnone]
      simp
    · rw [if_neg hother, List.lookup_cons, beq_false_of_ne hother, List.lookup_nil, Option.or_none]

/-- Every use gives what the constructor made when the key was first used. -/
theorem Tracks.internAll (htracks : Tracks used table record) (make : κ → σ → ν × σ)
    (keys : List κ) (state : σ) :
    let interned := Table.internAll (recording make) keys table (state, record)
    Tracks (used ++ keys) interned.table interned.state.2 ∧
      record <+: interned.state.2 ∧
      interned.instances.map some = keys.map fun key => interned.state.2.lookup key := by
  induction keys generalizing used table record state with
  | nil =>
      rw [List.append_nil]
      exact ⟨htracks, List.prefix_rfl, rfl⟩
  | cons key keys ih =>
      rw [List.append_cons]
      cases hkey : table.find? key with
      | some found =>
          obtain ⟨hafter, hrecord, hinstances⟩ := ih (htracks.use_again hkey) state
          have hfound := hrecord.lookup_eq_some ((htracks.finds key).symm.trans hkey)
          simp only [Table.internAll, intern_of_some hkey]
          refine ⟨hafter, hrecord, ?_⟩
          rw [List.map_cons, List.map_cons, hfound, hinstances]
      | none =>
          have hfirst := htracks.use_first hkey (make key state).1
          obtain ⟨hafter, hrecord, hinstances⟩ := ih hfirst (make key state).2
          have hmade := hrecord.lookup_eq_some
            ((hfirst.finds key).symm.trans (by rw [find?_cons, if_pos rfl]))
          simp only [Table.internAll, intern_of_none hkey, recording]
          refine ⟨hafter, (List.prefix_append _ _).trans hrecord, ?_⟩
          rw [List.map_cons, List.map_cons, hmade, hinstances]

end

end Table

namespace Atoms

/-! ### Symbols, integers and texts -/

/-- What can be asked of the interned atoms. -/
inductive Request where
  /-- The instance of the symbol that a name denotes. -/
  | symbol (name : Bytes)
  /-- The instance of an integer. -/
  | int (n : Int64)
  /-- The instance of an integer by the table, small or not. -/
  | tableInt (n : Int64)
  /-- The instance of a text. -/
  | text (content : Bytes)
deriving DecidableEq, Repr

def Request.value : Request → Value
  | .symbol name => .symbol (.intern name)
  | .int n => .int n
  | .tableInt n => .int n
  | .text content => .text content

def answer (atoms : Atoms) : Request → Nat × Atoms
  | .symbol name => atoms.symbol name
  | .int n => atoms.int n
  | .tableInt n => atoms.tableInt n
  | .text content => atoms.text content

/-- Answer requests in order: the values asked for with their instances, and the atoms
behind all requests. -/
def answerAll : Atoms → List Request → List (Value × Nat) × Atoms
  | atoms, [] => ([], atoms)
  | atoms, request :: requests =>
      let (found, atoms) := atoms.answer request
      let (later, atoms) := atoms.answerAll requests
      ((request.value, found) :: later, atoms)

theorem map_fst_answerAll (atoms : Atoms) (requests : List Request) :
    (atoms.answerAll requests).1.map Prod.fst = requests.map Request.value := by
  induction requests generalizing atoms with
  | nil => rfl
  | cons request requests ih => exact congrArg (request.value :: ·) (ih (atoms.answer request).2)

/-- The instance of a value, if it was made already. -/
def find? (atoms : Atoms) : Value → Option Nat
  | .symbol symbol => atoms.symbols.find? symbol.name
  | .int n => atoms.ints.find? n
  | .text content => atoms.texts.find? content
  | _ => none

/-- What one request leads to: the instance that the value has, or a new one. -/
inductive Interns (atoms : Atoms) (value : Value) : Nat × Atoms → Prop
  | found {number : Nat} (hfound : atoms.find? value = some number) :
      Interns atoms value (number, atoms)
  | made {after : Atoms} (hnew : atoms.find? value = none)
      (hmade : after.made = atoms.made + 1)
      (hfind : ∀ other, after.find? other =
        if other = value then some atoms.made else atoms.find? other)
      (hsmall : after.smallInts = atoms.smallInts) : Interns atoms value (atoms.made, after)

/-- Interning a key in the table that values of its kind are found in. -/
theorem interns_of_table {κ : Type} [DecidableEq κ] {atoms : Atoms} {table : Table κ Nat}
    {key : κ} {value : Value} (put : Table κ Nat → Nat → Atoms)
    (hvalue : atoms.find? value = table.find? key) (hput : put table atoms.made = atoms)
    (hmade : ∀ table made, (put table made).made = made)
    (hsmall : ∀ table made, (put table made).smallInts = atoms.smallInts)
    (hfind : ∀ made other, (put ⟨(key, atoms.made) :: table.entries⟩ made).find? other =
      if other = value then some atoms.made else atoms.find? other) :
    Interns atoms value ((table.intern numberInstance key atoms.made).1,
      put (table.intern numberInstance key atoms.made).2.1
        (table.intern numberInstance key atoms.made).2.2) := by
  cases hkey : table.find? key with
  | some found =>
      rw [Table.intern_of_some hkey, hput]
      exact .found (hvalue.trans hkey)
  | none =>
      rw [Table.intern_of_none hkey]
      exact .made (hvalue.trans hkey) (hmade _ _) (hfind _) (hsmall _ _)

theorem interns_tableInt (atoms : Atoms) (n : Int64) :
    Interns atoms (.int n) (atoms.tableInt n) := by
  refine interns_of_table (fun ints made => { atoms with ints := ints, made := made })
    rfl rfl (fun _ _ => rfl) (fun _ _ => rfl) (fun _ other => ?_)
  cases other with
  | int m => simp [find?, Table.find?_cons]
  | _ => simp [find?]

theorem interns_symbol (atoms : Atoms) (name : Bytes) :
    Interns atoms (.symbol (.intern name)) (atoms.symbol name) := by
  refine interns_of_table (fun symbols made => { atoms with symbols := symbols, made := made })
    rfl rfl (fun _ _ => rfl) (fun _ _ => rfl) (fun _ other => ?_)
  cases other with
  | symbol other =>
      obtain ⟨other⟩ := other
      simp [find?, Table.find?_cons, Symbol.intern]
  | _ => simp [find?]

theorem interns_text (atoms : Atoms) (content : Bytes) :
    Interns atoms (.text content) (atoms.text content) := by
  refine interns_of_table (fun texts made => { atoms with texts := texts, made := made })
    rfl rfl (fun _ _ => rfl) (fun _ _ => rfl) (fun _ other => ?_)
  cases other with
  | text other => simp [find?, Table.find?_cons]
  | _ => simp [find?]

/-! ### What every request keeps -/

/-- No instance is numbered twice: the numbers given are below the next one, and no two values
have the same. -/
structure Distinct (atoms : Atoms) : Prop where
  below : ∀ value number, atoms.find? value = some number → number < atoms.made
  unique : ∀ value other number, atoms.find? value = some number →
    atoms.find? other = some number → value = other

/-- The cache holds the instances of the first small integers, as many as `count`. -/
structure Caches (atoms : Atoms) (count : Nat) : Prop where
  size : atoms.smallInts.size = count
  cached : ∀ offset : Nat, offset < count →
    atoms.smallInts[offset]? = atoms.find? (.int (.ofInt (smallMin + offset)))

def Keeps (atoms after : Atoms) : Prop :=
  ∀ value number, atoms.find? value = some number → after.find? value = some number

section

variable {atoms : Atoms} {value : Value} {result : Nat × Atoms}

theorem Interns.find? (hinterns : Interns atoms value result) :
    result.2.find? value = some result.1 := by
  cases hinterns with
  | found hfound => exact hfound
  | made hnew hmade hfind hsmall => rw [hfind, if_pos rfl]

theorem Interns.keeps (hinterns : Interns atoms value result) : Keeps atoms result.2 := by
  intro other number hother
  cases hinterns with
  | found hfound => exact hother
  | made hnew hmade hfind hsmall =>
      have hne : other ≠ value := by
        rintro rfl
        rw [hnew] at hother
        cases hother
      rw [hfind, if_neg hne]
      exact hother

theorem Interns.distinct (hinterns : Interns atoms value result) (hdistinct : Distinct atoms) :
    Distinct result.2 := by
  cases hinterns with
  | found hfound => exact hdistinct
  | made hnew hmade hfind hsmall =>
      constructor
      · intro other number hother
        rw [hmade]
        rw [hfind] at hother
        split at hother
        · cases hother
          omega
        · have hbelow := hdistinct.below other number hother
          omega
      · -- The new number is none of those that were given before.
        have hfresh : ∀ other number, atoms.find? other = some number →
            some atoms.made ≠ some number := by
          rintro other number hother ⟨⟩
          exact Nat.lt_irrefl _ (hdistinct.below other _ hother)
        intro first second number hfirst hsecond
        rw [hfind] at hfirst hsecond
        split at hfirst
        · next hvalue =>
            split at hsecond
            · next hvalue' => exact hvalue.trans hvalue'.symm
            · exact absurd hfirst (hfresh second number hsecond)
        · split at hsecond
          · exact absurd hsecond (hfresh first number hfirst)
          · exact hdistinct.unique first second number hfirst hsecond

theorem Interns.smallInts_eq (hinterns : Interns atoms value result) :
    result.2.smallInts = atoms.smallInts := by
  cases hinterns with
  | found hfound => rfl
  | made hnew hmade hfind hsmall => exact hsmall

theorem Interns.caches (hinterns : Interns atoms value result) {count : Nat}
    (hcaches : Caches atoms count) : Caches result.2 count := by
  refine ⟨hinterns.smallInts_eq ▸ hcaches.size, fun offset hoffset => ?_⟩
  have hin : offset < atoms.smallInts.size := hcaches.size.symm ▸ hoffset
  have hcached := hcaches.cached offset hoffset
  rw [Array.getElem?_eq_getElem hin] at hcached
  rw [hinterns.smallInts_eq, Array.getElem?_eq_getElem hin]
  exact (hinterns.keeps _ _ hcached.symm).symm

end

/-! ### The small integers -/

def smallCount : Nat :=
  (smallMax - smallMin + 1).toNat

theorem distinct_blank : Distinct ⟨.empty, .empty, .empty, #[], 0⟩ := by
  have hnone : ∀ value, find? ⟨.empty, .empty, .empty, #[], 0⟩ value = none := by
    intro value
    cases value <;> rfl
  constructor <;> simp [hnone]

theorem caches_blank : Caches ⟨.empty, .empty, .empty, #[], 0⟩ 0 :=
  ⟨rfl, by simp⟩

theorem smallInts_addSmall (atoms : Atoms) (offset : Nat) :
    (atoms.addSmall offset).smallInts =
      (atoms.tableInt (.ofInt (smallMin + offset))).2.smallInts.push
        (atoms.tableInt (.ofInt (smallMin + offset))).1 := rfl

theorem find?_addSmall (atoms : Atoms) (offset : Nat) (value : Value) :
    (atoms.addSmall offset).find? value =
      (atoms.tableInt (.ofInt (smallMin + offset))).2.find? value := by
  cases value <;> rfl

theorem distinct_addSmall {atoms : Atoms} (hdistinct : Distinct atoms) (offset : Nat) :
    Distinct (atoms.addSmall offset) := by
  have hafter := (atoms.interns_tableInt (.ofInt (smallMin + offset))).distinct hdistinct
  constructor
  · simp only [find?_addSmall]
    exact hafter.below
  · simp only [find?_addSmall]
    exact hafter.unique

theorem caches_addSmall {atoms : Atoms} {count : Nat} (hcaches : Caches atoms count) :
    Caches (atoms.addSmall count) (count + 1) := by
  have hinterns := atoms.interns_tableInt (.ofInt (smallMin + count))
  have hafter := hinterns.caches hcaches
  refine ⟨?_, fun offset hoffset => ?_⟩
  · rw [smallInts_addSmall, Array.size_push, hafter.size]
  · rw [smallInts_addSmall, find?_addSmall, Array.getElem?_push, hafter.size]
    split
    · next hlast => rw [hlast, hinterns.find?]
    · exact hafter.cached offset (by omega)

theorem foldl_addSmall (count : Nat) :
    Distinct ((List.range count).foldl addSmall ⟨.empty, .empty, .empty, #[], 0⟩) ∧
      Caches ((List.range count).foldl addSmall ⟨.empty, .empty, .empty, #[], 0⟩) count := by
  induction count with
  | zero => exact ⟨distinct_blank, caches_blank⟩
  | succ count ih =>
      rw [List.range_succ, List.foldl_append]
      exact ⟨distinct_addSmall ih.1 count, caches_addSmall ih.2⟩

/-- The cache is never left for a small integer, and has the instance that the table has. -/
theorem Caches.small {atoms : Atoms} (hcaches : Caches atoms smallCount) {n : Int64}
    (hmin : smallMin ≤ n.toInt) (hmax : n.toInt ≤ smallMax) :
    ∃ found, atoms.smallInts[(n.toInt - smallMin).toNat]? = some found ∧
      atoms.find? (.int n) = some found := by
  have hoffset : (n.toInt - smallMin).toNat < smallCount := by
    rw [smallCount]
    omega
  have hsum : smallMin + (n.toInt - smallMin).toNat = n.toInt := by omega
  have hcached := hcaches.cached _ hoffset
  rw [hsum, Int64.ofInt_toInt] at hcached
  have hin : (n.toInt - smallMin).toNat < atoms.smallInts.size := hcaches.size.symm ▸ hoffset
  rw [Array.getElem?_eq_getElem hin] at hcached ⊢
  exact ⟨_, rfl, hcached.symm⟩

/-- The cache answers as the table does. -/
theorem Caches.int_eq_tableInt {atoms : Atoms} (hcaches : Caches atoms smallCount) (n : Int64) :
    atoms.int n = atoms.tableInt n := by
  rw [int]
  split
  · next hsmall =>
      obtain ⟨found, hcached, hfound⟩ := hcaches.small hsmall.1 hsmall.2
      rw [hcached, tableInt, Table.intern_of_some hfound]
  · rfl

/-! ### Requests in order -/

/-- What the atoms owe to each other. -/
structure Coherent (atoms : Atoms) : Prop where
  distinct : Distinct atoms
  caches : Caches atoms smallCount

theorem coherent_initial : Coherent initial :=
  ⟨(foldl_addSmall smallCount).1, (foldl_addSmall smallCount).2⟩

section

variable {atoms : Atoms}

theorem Coherent.interns_answer (hcoherent : Coherent atoms) (request : Request) :
    Interns atoms request.value (atoms.answer request) := by
  cases request with
  | symbol name => exact atoms.interns_symbol name
  | int n =>
      rw [answer, hcoherent.caches.int_eq_tableInt n]
      exact atoms.interns_tableInt n
  | tableInt n => exact atoms.interns_tableInt n
  | text content => exact atoms.interns_text content

theorem Coherent.answer (hcoherent : Coherent atoms) (request : Request) :
    Coherent (atoms.answer request).2 :=
  ⟨(hcoherent.interns_answer request).distinct hcoherent.distinct,
    (hcoherent.interns_answer request).caches hcoherent.caches⟩

/-- Behind all requests, every value that was asked for still has the instance given. -/
theorem Coherent.answerAll (hcoherent : Coherent atoms) (requests : List Request) :
    Coherent (atoms.answerAll requests).2 ∧ Keeps atoms (atoms.answerAll requests).2 ∧
      ∀ given ∈ (atoms.answerAll requests).1,
        (atoms.answerAll requests).2.find? given.1 = some given.2 := by
  induction requests generalizing atoms with
  | nil => exact ⟨hcoherent, fun _ _ hfound => hfound, by simp [Atoms.answerAll]⟩
  | cons request requests ih =>
      have hinterns := hcoherent.interns_answer request
      obtain ⟨hlater, hkeeps, hgiven⟩ := ih (hcoherent.answer request)
      refine ⟨hlater, ?_, ?_⟩
      · intro value number hfound
        exact hkeeps value number (hinterns.keeps value number hfound)
      · intro given hmem
        rcases List.mem_cons.mp hmem with rfl | hmem
        · exact hkeeps _ _ hinterns.find?
        · exact hgiven given hmem

theorem Coherent.same_iff (hcoherent : Coherent atoms) {value other : Value}
    {number number' : Nat} (hvalue : atoms.find? value = some number)
    (hother : atoms.find? other = some number') : number = number' ↔ value = other := by
  constructor
  · rintro rfl
    exact hcoherent.distinct.unique value other number hvalue hother
  · rintro rfl
    exact Option.some.inj (hvalue.symm.trans hother)

end

end Atoms

/-- There is one instance for every key.  Whatever the constructor of a new table is, and
whatever state it has, let keys be interned in order and keep a record of the runs of the
constructor: it is run once for each of the keys, in the order in which they were first used,
and every use of a key gives what was made then; keeping the record changes nothing.  And
whatever symbols, integers and texts were interned before, an integer is given the instance
that the table has for it; for a small integer the cache is not left and has the same one.  So
of the instances given, two are the same if and only if they are those of equal values. -/
theorem interning_keeps_one_instance {κ ν σ : Type} [DecidableEq κ] (make : κ → σ → ν × σ)
    (keys : List κ) (state : σ) (requests : List Atoms.Request) :
    (let interned := Table.internAll make keys .empty state
      let recorded := Table.internAll (Table.recording make) keys .empty (state, [])
      let record := recorded.state.2
      record.map Prod.fst = keys.eraseDups ∧
        recorded.instances.map some = keys.map (fun key => record.lookup key) ∧
        interned.instances = recorded.instances ∧ interned.state = recorded.state.1) ∧
      let given := (Atoms.initial.answerAll requests).1
      let atoms := (Atoms.initial.answerAll requests).2
      (∀ n : Int64, atoms.int n = atoms.tableInt n) ∧
        (∀ n : Int64, Atoms.smallMin ≤ n.toInt → n.toInt ≤ Atoms.smallMax →
          ∃ found, atoms.smallInts[(n.toInt - Atoms.smallMin).toNat]? = some found ∧
            atoms.ints.find? n = some found) ∧
        ∀ first ∈ given, ∀ second ∈ given, first.2 = second.2 ↔ first.1 = second.1 := by
  constructor
  · obtain ⟨htracks, -, hinstances⟩ := Table.tracks_empty.internAll make keys state
    exact ⟨htracks.keys, hinstances, Table.internAll_recording make keys .empty state []⟩
  · intro given atoms
    obtain ⟨hcoherent, -, hgiven⟩ := Atoms.coherent_initial.answerAll requests
    refine ⟨hcoherent.caches.int_eq_tableInt, fun n hmin hmax => ?_, ?_⟩
    · exact hcoherent.caches.small hmin hmax
    · intro first hfirst second hsecond
      exact hcoherent.same_iff (hgiven first hfirst) (hgiven second hsecond)

/-- The largest small integer has one instance in the cache and in the table, and the integer
after it has another. -/
theorem interning_keeps_one_instance_boundary :
    let recorded := Table.internAll (Table.recording numberInstance) [3, 5, 3] .empty (7, [])
    let given := (Atoms.initial.answerAll [.int 1024, .tableInt 1024, .int 1025]).1
    let atoms := (Atoms.initial.answerAll [.int 1024, .tableInt 1024, .int 1025]).2
    recorded.state.2.map Prod.fst = [3, 5] ∧ recorded.instances = [7, 8, 7] ∧
      (∃ found, atoms.smallInts[((1024 : Int64).toInt - Atoms.smallMin).toNat]? = some found ∧
        atoms.ints.find? 1024 = some found) ∧
      ∃ first second third,
        given = [(.int 1024, first), (.int 1024, second), (.int 1025, third)] ∧
          first = second ∧ second ≠ third := by
  obtain ⟨⟨hkeys, -, -⟩, -, hsmall, hsame⟩ := interning_keeps_one_instance numberInstance
    [3, 5, 3] 7 [.int 1024, .tableInt 1024, .int 1025]
  refine ⟨hkeys, rfl, hsmall 1024 (by decide) (by decide), ?_⟩
  -- Only the values that were asked for are needed; the initial atoms are not computed.
  have hvalues := Atoms.initial.map_fst_answerAll [.int 1024, .tableInt 1024, .int 1025]
  obtain ⟨⟨-, first⟩, later, hgiven, rfl, hlater⟩ := List.map_eq_cons_iff.mp hvalues
  obtain ⟨⟨-, second⟩, last, rfl, rfl, hlast⟩ := List.map_eq_cons_iff.mp hlater
  obtain ⟨⟨-, third⟩, rest, rfl, rfl, hnone⟩ := List.map_eq_cons_iff.mp hlast
  obtain rfl := List.map_eq_nil_iff.mp hnone
  rw [hgiven] at hsame
  refine ⟨first, second, third, hgiven, ?_, ?_⟩
  · exact (hsame _ List.mem_cons_self _ (List.mem_cons_of_mem _ List.mem_cons_self)).mpr rfl
  · have hne : Value.int 1024 ≠ .int 1025 := by decide
    intro heq
    exact hne ((hsame _ (List.mem_cons_of_mem _ List.mem_cons_self) _
      (List.mem_cons_of_mem _ (List.mem_cons_of_mem _ List.mem_cons_self))).mp heq)

end MiniLisp
