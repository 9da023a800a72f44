import Livingstone.Transition.Transitioned

/-! What a progress leaves out of the transition prototypes, and when the command values of the step
make up for it. -/

namespace Livingstone
namespace Transition

namespace Prototype

/-- What is made of the prototype of a mode. -/
def proto (mode : ℕ) : Prototype → ProtoTransition
  | .failure transitionValue toValue => .autonomous mode transitionValue toValue
  | .commanded transitionValue fromValue toValue pos neg =>
    .guarded mode transitionValue fromValue toValue pos neg

def clause (mode : ℕ) (p : Prototype) : Clause := (p.proto mode).instantiate

/-- The command assignment under which the prototype stands in the table, if it does. -/
def index : Prototype → Option Assignment
  | .failure _ _ => none
  | .commanded _ fromValue toValue pos neg =>
    if fromValue.toUInt32 = toValue then none else findCommandAssignment pos neg

end Prototype

/-- The lists of a mode variable hold these prototypes. -/
structure Stores (t : Transitioned) (ps : List Prototype) : Prop where
  unindexed : ∀ q, q ∈ t.unindexedPrototypes ++ t.autonomousTransitions ↔
    ∃ p ∈ ps, p.index = none ∧ p.proto t.id = q
  indexed : ∀ a q, q ∈ (t.findTransitionPrototypes a).getD [] ↔
    ∃ p ∈ ps, p.index = some a ∧ p.proto t.id = q
  nonempty : ∀ a, t.findTransitionPrototypes a ≠ some []

theorem stores_nil (id : ℕ) : Stores { id := id } [] := by
  constructor <;> simp [Transitioned.findTransitionPrototypes, Bucket.find]

theorem exists_mem_concat {ps : List Prototype} {p : Prototype} {P : Prototype → Prop} :
    (∃ p' ∈ ps ++ [p], P p') ↔ P p ∨ ∃ p' ∈ ps, P p' := by
  simp only [List.mem_append, List.mem_singleton, or_and_right, exists_or, exists_eq_left]
  exact or_comm

theorem Stores.addUnindexed {t t' : Transitioned} {ps : List Prototype} {p : Prototype}
    (h : Stores t ps) (hid : t'.id = t.id)
    (htable : t'.indexedTransitionTable = t.indexedTransitionTable) (hindex : p.index = none)
    (hmem : ∀ q, q ∈ t'.unindexedPrototypes ++ t'.autonomousTransitions ↔
      p.proto t.id = q ∨ q ∈ t.unindexedPrototypes ++ t.autonomousTransitions) :
    Stores t' (ps ++ [p]) := by
  have hfind : ∀ a, t'.findTransitionPrototypes a = t.findTransitionPrototypes a := by
    intro a
    rw [Transitioned.findTransitionPrototypes, htable]
    rfl
  constructor
  · intro q
    rw [hmem q, h.unindexed q, exists_mem_concat, hid]
    simp [hindex]
  · intro a q
    rw [hfind a, h.indexed a q, exists_mem_concat, hid]
    simp [hindex]
  · intro a
    rw [hfind a]
    exact h.nonempty a

theorem Stores.addIndexed {t : Transitioned} {ps : List Prototype} {p : Prototype} {b : Assignment}
    (h : Stores t ps) (hindex : p.index = some b) :
    Stores (t.addTransitionPrototypeToTable b (p.proto t.id)) (ps ++ [p]) := by
  have hfind : ∀ a, (t.addTransitionPrototypeToTable b (p.proto t.id)).findTransitionPrototypes a =
      if b = a then some (p.proto t.id :: (t.findTransitionPrototypes b).getD [])
      else t.findTransitionPrototypes a :=
    fun a => Bucket.find_push t.indexedTransitionTable b a (p.proto t.id)
  constructor
  · intro q
    rw [exists_mem_concat, hindex]
    simpa [Transitioned.addTransitionPrototypeToTable] using h.unindexed q
  · intro a q
    rw [hfind a, exists_mem_concat, hindex]
    by_cases hb : b = a
    · subst hb
      simp only [if_true, Option.getD_some, List.mem_cons, h.indexed b q, true_and,
        Transitioned.addTransitionPrototypeToTable]
      rw [eq_comm]
    · simp [hb, ← h.indexed a q, Transitioned.addTransitionPrototypeToTable]
  · intro a
    rw [hfind a]
    by_cases hb : b = a
    · simp [hb]
    · rw [if_neg hb]
      exact h.nonempty a

theorem Stores.add {t : Transitioned} {ps : List Prototype} (h : Stores t ps) (p : Prototype) :
    Stores (t.add p) (ps ++ [p]) := by
  cases p with
  | failure transitionValue toValue =>
    refine h.addUnindexed  rfl rfl rfl ?_
    intro q
    simp [Transitioned.add, Transitioned.addFailurePrototype, Prototype.proto, eq_comm, or_left_comm]
  | commanded transitionValue fromValue toValue pos neg =>
    simp only [Transitioned.add, Transitioned.addCommandedPrototype]
    have hcommand : (ProtoTransition.guarded t.id transitionValue fromValue toValue pos neg).commandAssignment =
      findCommandAssignment pos neg := rfl
    split
    case h_1 hnone =>
      refine h.addUnindexed rfl rfl ?_ fun q => ?_
      · rw [Prototype.index, ← hcommand, hnone, ite_self]
      · simp [Prototype.proto, eq_comm]
    case h_2 b hsome =>
      split
      case isTrue heq =>
        refine h.addUnindexed rfl rfl ?_ fun q => ?_
        · rw [Prototype.index, if_pos heq]
        · simp [Prototype.proto, eq_comm]
      case isFalse hne =>
        have hindex : (Prototype.commanded transitionValue fromValue toValue pos neg).index =
            some b := by
          rw [Prototype.index, if_neg hne, ← hcommand, hsome]
        exact h.addIndexed hindex

theorem Mode.stores (m : Mode) : Stores m.transitioned m.prototypes := by
  have hrun : ∀ (ps qs : List Prototype) (t : Transitioned), Stores t qs →
      Stores (ps.foldl Transitioned.add t) (qs ++ ps) := by
    intro ps
    induction ps with
    | nil =>
      intro qs t h
      simpa using h
    | cons p ps ih =>
      intro qs t h
      have hnext := ih (qs ++ [p]) (t.add p) (h.add p)
      simpa using hnext
  exact hrun m.prototypes [] { id := m.id } (stores_nil m.id)

theorem Mode.transitioned_id (m : Mode) : m.transitioned.id = m.id := by
  have hadd : ∀ (t : Transitioned) (p : Prototype), (t.add p).id = t.id := by
    intro t p
    cases p with
    | failure transitionValue toValue => rfl
    | commanded transitionValue fromValue toValue pos neg =>
      simp only [Transitioned.add, Transitioned.addCommandedPrototype]
      split
      · rfl
      · split <;> rfl
  have hrun : ∀ (ps : List Prototype) (t : Transitioned), (ps.foldl Transitioned.add t).id = t.id := by
    intro ps
    induction ps with
    | nil => exact fun t => rfl
    | cons p ps ih => exact fun t => (ih (t.add p)).trans (hadd t p)
  exact hrun m.prototypes { id := m.id }

/-- A transition of the mode with this command instantiates the prototype. -/
def Prototype.TakenBy (p : Prototype) (a : Assignment) : Prop := p.index = none ∨ p.index = some a

theorem mem_instantiateClauses {m : Mode} {a : Assignment} {c : Clause} :
    c ∈ m.transitioned.instantiateClauses a ↔
      ∃ p ∈ m.prototypes, p.TakenBy a ∧ p.clause m.id = c := by
  have hindexed : m.transitioned.instantiateIndexedClauses a =
      ((m.transitioned.findTransitionPrototypes a).getD []).map ProtoTransition.instantiate := by
    unfold Transitioned.instantiateIndexedClauses
    split <;> simp [*]
  have hclauses : m.transitioned.instantiateClauses a =
      ((m.transitioned.findTransitionPrototypes a).getD [] ++
        (m.transitioned.unindexedPrototypes ++ m.transitioned.autonomousTransitions)).map
          ProtoTransition.instantiate := by
    rw [Transitioned.instantiateClauses, hindexed, Transitioned.instantiateUnindexedClauses,
      Transitioned.instantiateAutonomousClauses]
    simp
  have hlists : ∀ q, q ∈ (m.transitioned.findTransitionPrototypes a).getD [] ++
      (m.transitioned.unindexedPrototypes ++ m.transitioned.autonomousTransitions) ↔
      ∃ p ∈ m.prototypes, p.TakenBy a ∧ p.proto m.id = q := by
    intro q
    rw [List.mem_append, m.stores.indexed a q, m.stores.unindexed q, m.transitioned_id]
    simp only [Prototype.TakenBy, ← exists_or, ← and_or_left, ← or_and_right]
    simp only [or_comm]
  rw [hclauses, List.mem_map]
  constructor
  · intro ⟨q, hq, hc⟩
    obtain ⟨p, hp, htaken, rfl⟩ := (hlists q).mp hq
    exact ⟨p, hp, htaken, hc⟩
  · intro ⟨p, hp, htaken, hc⟩
    exact ⟨p.proto m.id, (hlists _).mpr ⟨p, hp, htaken, rfl⟩, hc⟩

theorem hasIndexedTransitions_iff {m : Mode} {a : Assignment} :
    m.transitioned.hasIndexedTransitions a = true ↔ ∃ p ∈ m.prototypes, p.index = some a := by
  have hindexed := m.stores.indexed a
  have hnonempty := m.stores.nonempty a
  rw [Transitioned.hasIndexedTransitions]
  cases hfind : m.transitioned.findTransitionPrototypes a with
  | none =>
    rw [hfind] at hindexed
    simp only [Option.getD_none, List.not_mem_nil, false_iff, not_exists, not_and] at hindexed
    simp only [Option.isSome_none, Bool.false_eq_true, false_iff, not_exists, not_and]
    exact fun p hp hindex => hindexed (p.proto m.transitioned.id) p hp hindex rfl
  | some l =>
    rw [hfind] at hindexed hnonempty
    obtain ⟨q, hq⟩ := List.exists_mem_of_ne_nil l fun hl => hnonempty (by rw [hl])
    obtain ⟨p, hp, hindex, -⟩ := (hindexed q).mp hq
    simp only [Option.isSome_some, true_iff]
    exact ⟨p, hp, hindex⟩

/-- The progress transitions the mode. -/
def Mode.TransitionedBy (m : Mode) (usesFull : Bool) (a : Assignment) : Prop :=
  usesFull = true ∨ ∃ p ∈ m.prototypes, p.index = some a

theorem mem_progress {usesFull : Bool} {model : List Mode} {a : Assignment} {c : Clause} :
    c ∈ progress usesFull (model.map Mode.transitioned) a ↔
      ∃ m ∈ model, m.TransitionedBy usesFull a ∧
        ∃ p ∈ m.prototypes, p.TakenBy a ∧ p.clause m.id = c := by
  cases usesFull with
  | true =>
    simp [progress, fullProgress, Mode.TransitionedBy, List.mem_flatMap, mem_instantiateClauses]
  | false =>
    simp only [progress, minimalProgress, Bool.false_eq_true, if_false, List.flatMap_map,
      List.mem_flatMap, Mode.TransitionedBy, false_or]
    simp only [List.mem_ite_nil_right, mem_instantiateClauses, hasIndexedTransitions_iff]

/-- The values of the variables before a step, of the transitions in it and of the modes after. -/
structure Step where
  before : Variable → UInt32
  transition : ℕ → UInt32
  after : ℕ → UInt32

def Proposition.Holds (s : Step) : Proposition → Prop
  | .before v value => s.before v = value
  | .transition mode value => s.transition mode = value
  | .after mode value => s.after mode = value

def Clause.Holds (s : Step) (c : Clause) : Prop :=
  (∃ p ∈ c.positive, p.Holds s) ∨ ∃ p ∈ c.negative, ¬ p.Holds s

instance (s : Step) : (p : Proposition) → Decidable (p.Holds s)
  | .before v value => inferInstanceAs (Decidable (s.before v = value))
  | .transition mode value => inferInstanceAs (Decidable (s.transition mode = value))
  | .after mode value => inferInstanceAs (Decidable (s.after mode = value))

instance (s : Step) (c : Clause) : Decidable (c.Holds s) :=
  inferInstanceAs (Decidable (_ ∨ _))

/-- The command of the progress has its value before the step, the others have none. -/
def Step.Commanded (s : Step) (a : Assignment) : Prop :=
  ∀ id, s.before (.command id) = if id = a.command then a.value else noCommand

/-- The command values of the step make the clause hold. -/
def Clause.SatisfiedBy (c : Clause) (a : Assignment) : Prop := ∀ s : Step, s.Commanded a → c.Holds s

/-- A mode that has no new variable in the step: it stays, by a nominal transition. -/
def Mode.InPlace (m : Mode) (s : Step) : Prop :=
  s.transition m.id = 0 ∧ s.after m.id = s.before (.mode m.id)

namespace Prototype

/-- The commands occur as the header of the prototypes expects them: in negative literals, and the
first one with a command. -/
def Guarded : Prototype → Prop
  | .failure _ _ => True
  | .commanded _ _ _ pos neg => (∀ l ∈ pos, l.command? = none) ∧
    ∀ a, neg.findSome? ProtoAssignment.command? = some a → a.value ≠ noCommand

/-- A failure, or an idle transition. -/
def Stays : Prototype → Prop
  | .failure transitionValue _ => transitionValue ≠ 0
  | .commanded transitionValue fromValue toValue _ _ =>
    transitionValue ≠ 0 ∨ 0 ≤ fromValue ∧ fromValue.toUInt32 = toValue

end Prototype

theorem mem_of_findSome?_command {l : List ProtoAssignment} {a : Assignment}
    (h : l.findSome? ProtoAssignment.command? = some a) : ⟨.command a.command, a.value⟩ ∈ l := by
  obtain ⟨x, hx, hcommand⟩ := List.exists_of_findSome?_eq_some h
  obtain ⟨v, value⟩ := x
  cases v with
  | command id =>
    simp only [ProtoAssignment.command?, Option.some.injEq] at hcommand
    subst hcommand
    exact hx
  | mode id => simp [ProtoAssignment.command?] at hcommand
  | other id => simp [ProtoAssignment.command?] at hcommand

theorem mem_negative_guarded {mode : ℕ} {transitionValue toValue : UInt32} {fromValue : Int32}
    {pos neg : List ProtoAssignment} {l : ProtoAssignment} (hl : l ∈ neg) :
    l.proposition ∈ ((Prototype.commanded transitionValue fromValue toValue pos neg).clause
      mode).negative := by
  have hmem : l ∈ (ProtoTransition.guarded mode transitionValue fromValue toValue pos neg).negatives := by
    unfold ProtoTransition.guarded
    split
    · exact List.mem_cons_of_mem _ hl
    · exact hl
  exact List.mem_cons_of_mem _ (List.mem_reverse.mpr (List.mem_map_of_mem hmem))

theorem Prototype.Guarded.satisfied {p : Prototype} (h : p.Guarded) {a b : Assignment}
    (hindex : p.index = some b) (hne : b ≠ a) (mode : ℕ) : (p.clause mode).SatisfiedBy a := by
  intro s hs
  cases p with
  | failure transitionValue toValue => simp [Prototype.index] at hindex
  | commanded transitionValue fromValue toValue pos neg =>
    have hpos : pos.findSome? ProtoAssignment.command? = none := List.findSome?_eq_none_iff.mpr h.1
    have hneg : neg.findSome? ProtoAssignment.command? = some b := by
      rw [Prototype.index] at hindex
      split at hindex
      · cases hindex
      · simpa [findCommandAssignment, hpos] using hindex
    have hvalue : s.before (.command b.command) ≠ b.value := by
      rw [hs b.command]
      split
      case isTrue hcommand =>
        -- the same command with another value
        intro heq
        cases a
        cases b
        simp_all
      case isFalse hcommand => exact (h.2 b hneg).symm
    right
    exact ⟨.before (.command b.command) b.value,
      mem_negative_guarded (mem_of_findSome?_command hneg), hvalue⟩

/-- The prototypes of a mode that stays say nothing if they are failures or idle. -/
theorem Prototype.Stays.holds {p : Prototype} (h : p.Stays) {m : Mode} {s : Step}
    (hs : m.InPlace s) : (p.clause m.id).Holds s := by
  cases p with
  | failure transitionValue toValue =>
    right
    refine ⟨.transition m.id transitionValue, List.mem_cons_self, ?_⟩
    rw [Proposition.Holds, hs.1]
    exact h.symm
  | commanded transitionValue fromValue toValue pos neg =>
    obtain htransition | ⟨hfrom, hidle⟩ := h
    · right
      refine ⟨.transition m.id transitionValue, List.mem_cons_self, ?_⟩
      rw [Proposition.Holds, hs.1]
      exact htransition.symm
    · by_cases hvalue : s.after m.id = toValue
      · left
        exact ⟨.after m.id toValue, List.mem_cons_self, hvalue⟩
      · right
        refine ⟨.before (.mode m.id) fromValue.toUInt32, ?_, ?_⟩
        · have hmem : (⟨.mode m.id, fromValue.toUInt32⟩ : ProtoAssignment) ∈
              (ProtoTransition.guarded m.id transitionValue fromValue toValue pos neg).negatives := by
            rw [ProtoTransition.guarded, if_pos hfrom]
            exact List.mem_cons_self
          exact List.mem_cons_of_mem _ (List.mem_reverse.mpr (List.mem_map_of_mem hmem))
        · rw [Proposition.Holds, hidle, ← hs.2]
          exact hvalue

/-- What the progress omits is satisfied by the command values. -/
def LosesNothing (usesFull : Bool) (model : List Mode) (a : Assignment) : Prop :=
  ∀ m ∈ model, ∀ p ∈ m.prototypes,
    p.clause m.id ∉ progress usesFull (model.map Mode.transitioned) a →
      (p.clause m.id).SatisfiedBy a

section Omitted

variable {usesFull : Bool} {model : List Mode} {a : Assignment} {m : Mode} {p : Prototype}
  (hm : m ∈ model) (hp : p ∈ m.prototypes)
  (homitted : p.clause m.id ∉ progress usesFull (model.map Mode.transitioned) a)

include hm hp homitted

theorem not_takenBy_of_omitted (htransitioned : m.TransitionedBy usesFull a) : ¬ p.TakenBy a :=
  fun htaken => homitted (mem_progress.mpr ⟨m, hm, htransitioned, p, hp, htaken, rfl⟩)

theorem not_transitionedBy_of_omitted (hindex : p.index = none) : ¬ m.TransitionedBy usesFull a :=
  fun h => not_takenBy_of_omitted hm hp homitted h (.inl hindex)

theorem satisfied_of_omitted (hindex : p.index ≠ none) (hguarded : p.Guarded) :
    (p.clause m.id).SatisfiedBy a := by
  obtain ⟨b, hb⟩ := Option.ne_none_iff_exists'.mp hindex
  have hne : b ≠ a := by
    intro heq
    subst heq
    exact not_takenBy_of_omitted hm hp homitted (.inr ⟨p, hp, hb⟩) (.inr hb)
  exact hguarded.satisfied hb hne m.id

end Omitted

/-- Command values make up for what is omitted of the index; what else is omitted is of modes that
stay. -/
theorem omitted_prototypes (usesFull : Bool) (model : List Mode) (a : Assignment) :
    (∀ m ∈ model, ∀ p ∈ m.prototypes,
      p.clause m.id ∉ progress usesFull (model.map Mode.transitioned) a →
        (p.index ≠ none → p.Guarded → (p.clause m.id).SatisfiedBy a) ∧
        (p.index = none → ¬ m.TransitionedBy usesFull a ∧
          (p.Stays → ∀ s, m.InPlace s → (p.clause m.id).Holds s))) ∧
    ∀ s : Step, s.Commanded a →
      (∀ m ∈ model, ∀ p ∈ m.prototypes, p.index ≠ none → p.Guarded) →
      (∀ m ∈ model, ¬ m.TransitionedBy usesFull a →
        m.InPlace s ∧ ∀ p ∈ m.prototypes, p.index = none → p.Stays) →
      ((∀ c ∈ progress usesFull (model.map Mode.transitioned) a, c.Holds s) ↔
        ∀ m ∈ model, ∀ p ∈ m.prototypes, (p.clause m.id).Holds s) := by
  constructor
  · intro m hm p hp homitted
    exact ⟨satisfied_of_omitted hm hp homitted, fun hindex =>
      ⟨not_transitionedBy_of_omitted hm hp homitted hindex, fun hstays s hs => hstays.holds hs⟩⟩
  intro s hs hguarded hplace
  constructor
  · intro hclauses m hm p hp
    by_cases homitted : p.clause m.id ∈ progress usesFull (model.map Mode.transitioned) a
    · exact hclauses _ homitted
    · by_cases hindex : p.index = none
      · have hnot := not_transitionedBy_of_omitted hm hp homitted hindex
        obtain ⟨hinPlace, hstays⟩ := hplace m hm hnot
        exact (hstays p hp hindex).holds hinPlace
      · exact satisfied_of_omitted hm hp homitted hindex (hguarded m hm p hp hindex) s hs
  · intro hall c hc
    obtain ⟨m, hm, -, p, hp, -, rfl⟩ := mem_progress.mp hc
    exact hall m hm p hp

/-- Full progress loses nothing of a model in which the commands are guards. -/
theorem fullProgress_losesNothing {model : List Mode}
    (hguarded : ∀ m ∈ model, ∀ p ∈ m.prototypes, p.index ≠ none → p.Guarded) (a : Assignment) :
    LosesNothing true model a := by
  intro m hm p hp homitted
  have hindex : p.index ≠ none :=
    fun hnone => not_transitionedBy_of_omitted hm hp homitted hnone (.inl rfl)
  exact satisfied_of_omitted hm hp homitted hindex (hguarded m hm p hp hindex)

/-- A prototype under a positive literal says nothing where it is instantiated. -/
theorem satisfied_of_positive {mode : ℕ} {transitionValue toValue : UInt32} {fromValue : Int32}
    {pos neg : List ProtoAssignment} {a : Assignment}
    (ha : pos.findSome? ProtoAssignment.command? = some a) :
    ((Prototype.commanded transitionValue fromValue toValue pos neg).clause mode).SatisfiedBy a := by
  intro s hs
  left
  refine ⟨.before (.command a.command) a.value, List.mem_cons_of_mem _ ?_, ?_⟩
  · exact List.mem_reverse.mpr (List.mem_map_of_mem (mem_of_findSome?_command ha))
  · have hvalue := hs a.command
    rwa [if_pos rfl] at hvalue

-- the command 0 opens the valve with its second value
/-- A valve and, without a command of its own, a pump that starts when the other variable 0 has its
second value. -/
def valveAndPump : List Mode :=
  [⟨0, [.commanded 0 0 1 [] [⟨.command 0, 1⟩]]⟩, ⟨1, [.commanded 0 0 1 [] [⟨.other 0, 1⟩]]⟩]

/-- A valve that closes unless the command 0 opens it. -/
def closingValve : List Mode := [⟨0, [.commanded 0 1 0 [⟨.command 0, 1⟩] []]⟩]

/-- A valve that closes when the command 0 has its first value. -/
def idleValve : List Mode := [⟨0, [.commanded 0 1 0 [] [⟨.command 0, noCommand⟩]]⟩]

/-- Minimal progress loses the pump; the index loses a prototype with a positive literal, and one
with a guard for no command. -/
theorem not_losesNothing : ¬ LosesNothing false valveAndPump ⟨0, 1⟩ ∧
    ¬ LosesNothing true closingValve ⟨1, 1⟩ ∧ ¬ LosesNothing true idleValve ⟨1, 1⟩ := by
  refine ⟨fun h => ?_, fun h => ?_, fun h => ?_⟩
  · have hlost := h ⟨1, [.commanded 0 0 1 [] [⟨.other 0, 1⟩]]⟩ (by simp [valveAndPump])
      (.commanded 0 0 1 [] [⟨.other 0, 1⟩]) (by simp) (by decide)
      ⟨fun v => if v = .command 0 ∨ v = .other 0 then 1 else 0, fun _ => 0, fun _ => 0⟩
      (fun id => by simp [noCommand])
    exact absurd hlost (by decide)
  · have hlost := h ⟨0, [.commanded 0 1 0 [⟨.command 0, 1⟩] []]⟩ (by simp [closingValve])
      (.commanded 0 1 0 [⟨.command 0, 1⟩] []) (by simp) (by decide)
      ⟨fun v => if v = .command 1 ∨ v = .mode 0 then 1 else 0, fun _ => 0, fun _ => 1⟩
      (fun id => by simp [noCommand])
    exact absurd hlost (by decide)
  · have hlost := h ⟨0, [.commanded 0 1 0 [] [⟨.command 0, noCommand⟩]]⟩ (by simp [idleValve])
      (.commanded 0 1 0 [] [⟨.command 0, noCommand⟩]) (by simp) (by decide)
      ⟨fun v => if v = .command 1 ∨ v = .mode 0 then 1 else 0, fun _ => 0, fun _ => 1⟩
      (fun id => by simp [noCommand])
    exact absurd hlost (by decide)

end Transition
end Livingstone
