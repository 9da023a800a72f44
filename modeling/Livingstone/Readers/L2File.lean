import Mathlib.Tactic

/-! The model a reader builds and a writer or translator goes through (`L2_file.h` and
the classes it holds). Pointers to the objects of a file are their indices, which the
code keeps as their identifiers. -/

namespace Livingstone

/-- The exceptions and failed assertions of the readers, translators and writers. The last
three are none of the code's: it writes past the end of an array, follows a null pointer,
or a loop runs longer than its bound. -/
inductive ReaderError where
  | fatal (msg : String)
  | reader (msg : String)
  | writer (msg : String)
  | optimizer (msg : String)
  | bounds (msg : String) (index size : ℕ)
  | assertion
  | overrun
  | nullPointer
  | outOfFuel
  deriving DecidableEq, Repr

inductive VarKind where
  | unknown
  | observed
  | commanded
  | mode
  deriving DecidableEq, Repr

/-- `fromMode` is `none` for `ANY_MODE`, and a clause is `none` where the pointer to it
is null. -/
structure L2rTransition where
  mode : ℕ
  fromMode : Option ℕ
  toMode : ℕ
  clauses : List (Option ℕ)
  isNominal : Bool
  rank : ℕ
  deriving DecidableEq, Repr

/-- The transitions of a mode variable, the failures by increasing rank. -/
structure L2rMode where
  nominal : List L2rTransition := []
  failure : List L2rTransition := []
  deriving DecidableEq, Repr

/-- `initial` is `none` for `NO_INITIAL_VALUE`. -/
structure L2rVariable where
  type : ℕ
  kind : VarKind := .unknown
  initial : Option ℕ := none
  mode : L2rMode := {}
  deriving DecidableEq, Repr

structure L2rPropVarValue where
  var : ℕ
  positive : Bool
  value : ℕ
  deriving DecidableEq, Repr

structure L2rPropVarVar where
  var : ℕ
  positive : Bool
  otherVar : ℕ
  deriving DecidableEq, Repr

inductive L2rProposition where
  | varValue (p : L2rPropVarValue)
  | varVar (p : L2rPropVarVar)
  deriving DecidableEq, Repr

structure L2rClause where
  props : List ℕ
  isInBackground : Bool := false
  deriving DecidableEq, Repr

/-- `enums` holds the number of members of each enumeration. -/
structure L2File where
  enums : List ℕ := []
  vars : List L2rVariable := []
  props : List L2rProposition := []
  clauses : List L2rClause := []
  deriving DecidableEq, Repr

def VarKind.toString : VarKind → String
  | .unknown => "unspecified"
  | .observed => "observed"
  | .commanded => "commanded"
  | .mode => "mode"

namespace L2rVariable

variable (x : L2rVariable) (id : ℕ)

/-- `setKind`, of the variable `id`. A variable that becomes a mode gets no transitions. -/
def setKind (vk : VarKind) : Except ReaderError L2rVariable :=
  if x.kind = .unknown ∨ x.kind = vk then .ok { x with kind := vk }
  else .error (.fatal ("Resetting kind of " ++ Nat.repr id ++ " to " ++ vk.toString ++ " from " ++
    x.kind.toString))

def setInitial (i : ℕ) : Except ReaderError L2rVariable :=
  if x.initial = none ∨ x.initial = some i then .ok { x with initial := some i }
  else .error (.fatal ("Resetting initial value of " ++ Nat.repr id ++ " to " ++ Nat.repr i ++
    " from " ++ Nat.repr (x.initial.getD 0)))

end L2rVariable

/-- Before the first transition that is less likely. -/
def insertFailure (x : L2rTransition) : List L2rTransition → List L2rTransition
  | [] => [x]
  | y :: ys => if x.rank < y.rank then x :: y :: ys else y :: insertFailure x ys

def L2rMode.addTransition (m : L2rMode) (x : L2rTransition) : L2rMode :=
  if x.isNominal then { m with nominal := x :: m.nominal }
  else { m with failure := insertFailure x m.failure }

def boundsCheckAccess {α : Type} (i : ℕ) (array : List α) (name : String) : Except ReaderError α :=
  match array[i]? with
  | some x => .ok x
  | none => .error (.bounds (name ++ " array") i array.length)

theorem boundsCheckAccess_eq_ok {α : Type} {i : ℕ} {array : List α} {name : String} {x : α} :
    boundsCheckAccess i array name = .ok x ↔ array[i]? = some x := by
  unfold boundsCheckAccess
  cases array[i]? with
  | none => simp
  | some y => simp

namespace L2File

variable (f : L2File) (i : ℕ)

def getEnum : Except ReaderError ℕ := boundsCheckAccess i f.enums "enumeration"

def getProp : Except ReaderError L2rProposition := boundsCheckAccess i f.props "propositions"

def getClause : Except ReaderError L2rClause := boundsCheckAccess i f.clauses "clause"

end L2File

def L2File.addTransition (f : L2File) (x : L2rTransition) : Except ReaderError L2File :=
  match f.vars[x.mode]? with
  | none => .error (.bounds "variable array" x.mode f.vars.length)
  | some v =>
    if v.kind = .mode then
      .ok { f with vars := f.vars.set x.mode { v with mode := v.mode.addTransition x } }
    else .error (.fatal "Reading L2rVariable::mode_ for non-mode variable")

namespace L2rProposition

def Holds (a : ℕ → ℕ) : L2rProposition → Prop
  | .varValue p => a p.var = p.value ↔ p.positive = true
  | .varVar p => a p.var = a p.otherVar ↔ p.positive = true

instance (a : ℕ → ℕ) : DecidablePred (Holds a)
  | .varValue _ => inferInstanceAs (Decidable (_ ↔ _))
  | .varVar _ => inferInstanceAs (Decidable (_ ↔ _))

end L2rProposition

namespace L2File

variable (f : L2File)

def type (v : ℕ) : Option ℕ := (f.vars[v]?).map (·.type)

def nmembers (v : ℕ) : ℕ := ((f.type v).bind (f.enums[·]?)).getD 0

def Valid (a : ℕ → ℕ) : Prop := ∀ v < f.vars.length, a v < f.nmembers v

def clauseProps (c : L2rClause) : List L2rProposition := c.props.filterMap (f.props[·]?)

def ClauseHolds (a : ℕ → ℕ) (c : L2rClause) : Prop := ∃ p ∈ f.clauseProps c, p.Holds a

/-- A proposition refers to variables of the file, to a value that its variable has, and
compares variables of one type. -/
def Typed : L2rProposition → Prop
  | .varValue p => p.var < f.vars.length ∧ p.value < f.nmembers p.var
  | .varVar p => p.var < f.vars.length ∧ p.otherVar < f.vars.length ∧
      f.type p.var = f.type p.otherVar

instance : DecidablePred f.Typed
  | .varValue _ => inferInstanceAs (Decidable (_ ∧ _))
  | .varVar _ => inferInstanceAs (Decidable (_ ∧ _ ∧ _))

/-- A transition of the mode variable `v`. -/
structure TypedTransition (v : ℕ) (x : L2rTransition) : Prop where
  mode : x.mode = v
  from_lt : ∀ i, x.fromMode = some i → i < f.nmembers v
  to_lt : x.toMode < f.nmembers v
  clauses : ∀ c ∈ x.clauses, ∃ i < f.clauses.length, c = some i

/-- What the readers check or make sure of. -/
structure WellFormed : Prop where
  types : ∀ x ∈ f.vars, x.type < f.enums.length
  initial : ∀ v x i, f.vars[v]? = some x → x.initial = some i → i < f.nmembers v
  props : ∀ p ∈ f.props, f.Typed p
  clauses : ∀ c ∈ f.clauses, ∀ i ∈ c.props, i < f.props.length
  nominal : ∀ v x, f.vars[v]? = some x → ∀ y ∈ x.mode.nominal,
    x.kind = .mode ∧ y.isNominal = true ∧ y.rank = 0 ∧ f.TypedTransition v y
  failure : ∀ v x, f.vars[v]? = some x → ∀ y ∈ x.mode.failure,
    x.kind = .mode ∧ y.isNominal = false ∧ f.TypedTransition v y
  sorted : ∀ x ∈ f.vars, x.mode.failure.Pairwise fun y z => y.rank ≤ z.rank

instance (v : ℕ) (x : L2rTransition) : Decidable (f.TypedTransition v x) :=
  decidable_of_iff (x.mode = v ∧ (∀ i ∈ x.fromMode, i < f.nmembers v) ∧ x.toMode < f.nmembers v ∧
      ∀ c ∈ x.clauses, ∃ i < f.clauses.length, c = some i)
    ⟨fun h => ⟨h.1, h.2.1, h.2.2.1, h.2.2.2⟩, fun h => ⟨h.mode, h.from_lt, h.to_lt, h.clauses⟩⟩

theorem forall_vars {P : ℕ → L2rVariable → Prop} :
    (∀ v x, f.vars[v]? = some x → P v x) ↔ ∀ v < f.vars.length, ∀ x ∈ f.vars[v]?, P v x :=
  ⟨fun h v _ x hx => h v x hx,
    fun h v x hx => h v (List.getElem?_eq_some_iff.mp hx).1 x hx⟩

instance : Decidable f.WellFormed :=
  decidable_of_iff ((∀ x ∈ f.vars, x.type < f.enums.length) ∧
      (∀ v < f.vars.length, ∀ x ∈ f.vars[v]?, ∀ i ∈ x.initial, i < f.nmembers v) ∧
      (∀ p ∈ f.props, f.Typed p) ∧ (∀ c ∈ f.clauses, ∀ i ∈ c.props, i < f.props.length) ∧
      (∀ v < f.vars.length, ∀ x ∈ f.vars[v]?, ∀ y ∈ x.mode.nominal,
        x.kind = .mode ∧ y.isNominal = true ∧ y.rank = 0 ∧ f.TypedTransition v y) ∧
      (∀ v < f.vars.length, ∀ x ∈ f.vars[v]?, ∀ y ∈ x.mode.failure,
        x.kind = .mode ∧ y.isNominal = false ∧ f.TypedTransition v y) ∧
      ∀ x ∈ f.vars, x.mode.failure.Pairwise fun y z => y.rank ≤ z.rank)
    ⟨fun ⟨h₁, h₂, h₃, h₄, h₅, h₆, h₇⟩ => ⟨h₁, fun v x i hx hi => f.forall_vars.mpr h₂ v x hx i hi,
        h₃, h₄, f.forall_vars.mpr h₅, f.forall_vars.mpr h₆, h₇⟩,
      fun h => ⟨h.types, fun v _ x hx i hi => h.initial v x i hx hi, h.props, h.clauses,
        f.forall_vars.mp h.nominal, f.forall_vars.mp h.failure, h.sorted⟩⟩

end L2File

end Livingstone
