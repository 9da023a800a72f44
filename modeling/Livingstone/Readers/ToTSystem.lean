import Livingstone.Diagnosis.Session
import Livingstone.Lib.OneHot
import Livingstone.Readers.Expand
import Livingstone.Transition.ModeTransitions

/-! A model is put into the engine (`to_t_system.cpp`): its variables first, then the clauses of its
background and the transitions of its modes. These become prototypes, of which only the failures that
can always occur take part in the initial state, which is created then. -/

namespace Livingstone

namespace L2rMode

/-- The nominal transitions share a value. -/
def domainSize (m : L2rMode) : ℕ := 1 + m.failure.length

end L2rMode

namespace ToTSystem

/-- `T_system::NOW`, and `BEFORE_HORIZON` too. -/
def now : ℕ := 4294967295

/-- The assignable variable with the identifier of a variable of the file: that variable or, if it
is a mode, its transition variable. -/
def assignable (v : ℕ) : VarId := ⟨v, now⟩

/-- The propositions of a variable and, if it is a mode, of its transition variable. -/
structure Entered where
  propositions : List PropId
  transition : List PropId := []
  deriving DecidableEq, Repr

def Entered.all (w : Entered) : List PropId := w.propositions ++ w.transition

inductive WriteError where
  | emptyModel (msg : String)
  | reader (e : ReaderError)
  | engine (e : L2Error)
  deriving DecidableEq, Repr

section

variable (M : Session) (f : L2File)

/-- `createVariable`, for the variable at an index. -/
def createVariable (x : List Entered × Engine) (i : ℕ) :
    Except WriteError (List Entered × Engine) := do
  let (entered, e) := x
  let y ← (boundsCheckAccess i f.vars "variable").mapError .reader
  let propositions := (e.solver.createPropositions (f.nmembers i)).1
  match y.kind with
  | .commanded => do
    let e ← (e.createAssignable M.assignables M.datum (assignable i)).mapError .engine
    let e ← (e.assignIndex M.assignables (assignable i) 0).mapError .engine
    return (entered ++ [⟨propositions, []⟩], e)
  | .observed => do
    let e ← (e.createAssignable M.assignables M.datum (assignable i)).mapError .engine
    return (entered ++ [⟨propositions, []⟩], e)
  | .mode => do
    let e ← (e.createDependent (f.nmembers i)).mapError .engine
    let transition := (e.solver.createPropositions y.mode.domainSize).1
    let e ← (e.createAssignable M.assignables M.datum (assignable i)).mapError .engine
    let e ← (e.restoreDefault M.assignables (assignable i)).mapError .engine
    return (entered ++ [⟨propositions, transition⟩], e)
  | .unknown => do
    let e ← (e.createDependent (f.nmembers i)).mapError .engine
    return (entered ++ [⟨propositions, []⟩], e)

def createVariables (e : Engine) : Except WriteError (List Entered × Engine) :=
  (List.range f.vars.length).foldlM (createVariable M f) ([], e)

variable {M f}

/-- The clauses of a clause of the model are created. -/
def enterClauses (ks : List Clause) (e : Engine) : Except L2Error Engine :=
  ks.foldlM (fun e k => e.createClause k.positiveProps k.negativeProps false true) e

def createBackground (V : Variables f) (e : Engine) (c : L2rClause) : Except WriteError Engine :=
  if c.isInBackground then do
    let ks ← (expandClause V c).mapError .reader
    (enterClauses ks e).mapError .engine
  else .ok e

end

/-- `findVar`: the propositions of a variable of the file. -/
def findVar (entered : List Entered) (v : ℕ) : List PropId :=
  ((entered[v]?).map (·.propositions)).getD []

theorem nmembers_of_le {f : L2File} {v : ℕ} (hv : f.vars.length ≤ v) : f.nmembers v = 0 := by
  have htype : f.type v = none := by
    unfold L2File.type
    rw [List.getElem?_eq_none hv]
    rfl
  unfold L2File.nmembers
  rw [htype]
  rfl

theorem findVar_eq {entered : List Entered} {v : ℕ} {w : Entered} (h : entered[v]? = some w) :
    findVar entered v = w.propositions := by
  unfold findVar
  rw [h]
  rfl

/-- The propositions of a variable of the file, or of its transition variable. -/
def blockOf (entered : List Entered) (i : ℕ × Bool) : List PropId :=
  match entered[i.1]? with
  | some w => if i.2 then w.transition else w.propositions
  | none => []

theorem findVar_eq_blockOf (entered : List Entered) (v : ℕ) :
    findVar entered v = blockOf entered (v, false) := by
  unfold findVar blockOf
  cases entered[v]? <;> rfl

theorem mem_blockOf {entered : List Entered} {i : ℕ × Bool} {x : ℕ} {p : PropId}
    (h : (blockOf entered i)[x]? = some p) :
    ∃ w, entered[i.1]? = some w ∧ (i.2 = false → x < w.propositions.length) ∧
      w.all[if i.2 then w.propositions.length + x else x]? = some p := by
  unfold blockOf at h
  cases hw : entered[i.1]? with
  | none => simp [hw] at h
  | some w =>
    rw [hw] at h
    refine ⟨w, rfl, ?_⟩
    cases hi : i.2 with
    | false =>
      simp only [hi, Bool.false_eq_true, if_false] at h ⊢
      have hx := (List.getElem?_eq_some_iff.mp h).1
      refine ⟨fun _ => hx, ?_⟩
      unfold Entered.all
      rw [List.getElem?_append_left hx, h]
    | true =>
      simp only [hi, if_true] at h ⊢
      refine ⟨fun hfalse => absurd hfalse (by decide), ?_⟩
      unfold Entered.all
      rw [List.getElem?_append_right (Nat.le_add_right _ _), Nat.add_sub_cancel_left, h]

theorem distinct_blockOf {entered : List Entered} (h : (entered.flatMap (·.all)).Nodup) :
    OneHot.Distinct (blockOf entered) := by
  rintro ⟨v, b⟩ ⟨v', b'⟩ x y p hx hy
  obtain ⟨w, hw, hlt, hp⟩ := mem_blockOf hx
  obtain ⟨w', hw', hlt', hp'⟩ := mem_blockOf hy
  obtain ⟨hnodup, hdisjoint⟩ := List.nodup_flatMap.mp h
  have hvv : v = v' := by
    obtain ⟨hv, rfl⟩ := List.getElem?_eq_some_iff.mp hw
    obtain ⟨hv', rfl⟩ := List.getElem?_eq_some_iff.mp hw'
    rw [List.pairwise_iff_getElem] at hdisjoint
    have hmem := List.mem_of_getElem? hp
    have hmem' := List.mem_of_getElem? hp'
    rcases lt_trichotomy v v' with hvv | hvv | hvv
    · exact absurd hmem' (hdisjoint v v' hv hv' hvv hmem)
    · exact hvv
    · exact absurd hmem (hdisjoint v' v hv' hv hvv hmem')
  subst hvv
  obtain rfl := Option.some.inj (hw.symm.trans hw')
  -- the place among all the propositions of the variable
  obtain ⟨hlen, hp⟩ := List.getElem?_eq_some_iff.mp hp
  obtain ⟨hlen', hp'⟩ := List.getElem?_eq_some_iff.mp hp'
  have hplace := (hnodup w (List.mem_of_getElem? hw)).getElem_inj_iff.mp (hp.trans hp'.symm)
  cases b <;> cases b' <;> simp at hplace hlt hlt' ⊢ <;> omega

theorem length_findVar {f : L2File} {entered : List Entered}
    (h : entered.map (·.propositions.length) = (List.range f.vars.length).map f.nmembers) (v : ℕ) :
    (findVar entered v).length = f.nmembers v := by
  have hlen := congrArg List.length h
  simp only [List.length_map, List.length_range] at hlen
  by_cases hv : v < f.vars.length
  · have hget := congrArg (·[v]?) h
    simp only [List.getElem?_map, List.getElem?_range hv] at hget
    obtain ⟨w, hw⟩ : ∃ w, entered[v]? = some w := ⟨_, List.getElem?_eq_getElem (hlen ▸ hv)⟩
    rw [hw] at hget
    rw [findVar_eq hw]
    exact Option.some.inj hget
  · have hv := not_lt.mp hv
    unfold findVar
    rw [nmembers_of_le hv, List.getElem?_eq_none (hlen ▸ hv)]
    rfl

/-- The variables of the engine, if each has a proposition for every value and all propositions are
different; they always are. -/
def variablesOf (f : L2File) (entered : List Entered) : Option (Variables f) :=
  if h : entered.map (·.propositions.length) = (List.range f.vars.length).map f.nmembers ∧
      (entered.flatMap (·.all)).Nodup then
    some
      { propositions := findVar entered
        length_eq := length_findVar h.1
        unique := fun v w x y p hx hy => by
          rw [findVar_eq_blockOf] at hx hy
          obtain ⟨heq, hxy⟩ := distinct_blockOf h.2 _ _ x y p hx hy
          exact ⟨congrArg Prod.fst heq, hxy⟩ }
  else none

/-- `createTransitions`, for the variable at an index if it is a mode. -/
def createTransitions (f : L2File) (i : ℕ) :
    Except WriteError (Option Transition.ModeVariable) := do
  let y ← (boundsCheckAccess i f.vars "variable").mapError .reader
  if y.kind = .mode then do
    let t ← (Transition.createTransitions f i y.mode).mapError .reader
    return some t
  else return none

/-- `write`: the propositions of the variables and the transitions of the modes, with the engine. -/
def write (M : Session) (f : L2File) (e : Engine) :
    Except WriteError (List Entered × List (Option Transition.ModeVariable) × Engine) :=
  if f.enums = [] then .error (.emptyModel "model has no enumerations")
  else if f.vars = [] then .error (.emptyModel "model has no variables")
  else if f.clauses = [] then .error (.emptyModel "model has no clauses")
  else do
    let (entered, e) ← createVariables M f e
    match variablesOf f entered with
    | none => .error (.engine .assertion)
    | some V => do
      let e ← f.clauses.foldlM (createBackground V) e
      let modes ← (List.range f.vars.length).mapM (createTransitions f)
      return (entered, modes, e)

/-- The state variable, at the first time step. -/
def stateVar : VarId := ⟨4294967295, 0⟩

def valueProp (propositions : List PropId) (index : ℕ) : Except WriteError PropId :=
  match propositions[index]? with
  | some p => .ok p
  | none => .error (.reader (.bounds "variable propositions" index propositions.length))

/-- `instantiate_autonomous_clauses`; such prototypes have no antecedents. -/
def instantiateAutonomousClauses (w : Entered) (prototypes : List Transition.ProtoTransition)
    (e : Engine) : Except WriteError Engine :=
  prototypes.foldlM (fun e p => do
    let transition ← valueProp w.transition p.transitionValue.toNat
    let consequent ← valueProp w.propositions p.consequent.2.toNat
    (e.createClause [consequent] [transition] false true).mapError .engine) e

def setInitialMode (w : Entered) (t : Transition.ModeVariable) (state : PropId)
    (modeValueIndex : ℕ) (e : Engine) : Except WriteError Engine := do
  let nominal ← valueProp w.transition 0
  let value ← valueProp w.propositions modeValueIndex
  let e ← (e.createClause [value] [nominal, state] false true).mapError .engine
  instantiateAutonomousClauses w t.prototypes.autonomousTransitions e

section

variable (M : Session) (f : L2File) (entered : List Entered)
  (modes : List (Option Transition.ModeVariable))

/-- The variable at an index, in the loop of `createInitialState`. -/
def setInitial (state : PropId) (e : Engine) (i : ℕ) : Except WriteError Engine := do
  let y ← (boundsCheckAccess i f.vars "variable").mapError .reader
  match y.initial, y.kind with
  | none, _ => return e
  | some value, .mode =>
    match entered[i]?, (modes[i]?).join with
    | some w, some t => setInitialMode w t state value e
    | _, _ => .error (.reader .nullPointer)
  | some value, .observed => (e.observe M.assignables (assignable i) value).mapError .engine
  | some _, _ => .error (.reader (.reader
      ("v" ++ Nat.repr i ++ " is neither mode nor observation yet has an initial value")))

def createInitialState (e : Engine) : Except WriteError Engine := do
  let state ← valueProp (e.solver.createPropositions 1).1 0
  let e ← (e.createAssignable M.assignables M.datum stateVar).mapError .engine
  let e ← (List.range f.vars.length).foldlM (setInitial M f entered modes state) e
  let e ← (e.assignIndex M.assignables stateVar 0).mapError .engine
  let (_, solver) ← (e.solver.propagate).mapError .engine
  return { e with solver := solver }

end

end ToTSystem

end Livingstone
