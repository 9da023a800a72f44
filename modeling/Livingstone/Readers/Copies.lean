import Livingstone.Lib.Loop
import Livingstone.Readers.Translator

/-! What the copies of a translation say. An assignment to the variables of the
destination is pulled back to those of the source along the map, and a copy holds of it
where the original holds of the pulled back one. -/

namespace Livingstone

open Loop

namespace L2File

/-- A solution of the background clauses. -/
def Solution (f : L2File) (a : ℕ → ℕ) : Prop :=
  f.Valid a ∧ ∀ c ∈ f.clauses, c.isInBackground = true → f.ClauseHolds a c

theorem clauseHolds_iff {f : L2File} {a : ℕ → ℕ} {c : L2rClause} :
    f.ClauseHolds a c ↔ ∃ i ∈ c.props, ∃ p, f.props[i]? = some p ∧ p.Holds a := by
  unfold ClauseHolds clauseProps
  simp only [List.mem_filterMap]
  constructor
  · intro ⟨p, ⟨i, hi, hp⟩, hh⟩
    exact ⟨i, hi, p, hp, hh⟩
  · intro ⟨i, hi, p, hp, hh⟩
    exact ⟨p, ⟨i, hi, hp⟩, hh⟩

/-- The files differ in nothing but the transitions of the modes. -/
structure SameButModes (f g : L2File) : Prop where
  enums : g.enums = f.enums
  props : g.props = f.props
  clauses : g.clauses = f.clauses
  length : g.vars.length = f.vars.length
  vars : ∀ (v : ℕ) (x : L2rVariable), f.vars[v]? = some x → ∃ y : L2rVariable, g.vars[v]? = some y ∧
    y.type = x.type ∧ y.kind = x.kind ∧ y.initial = x.initial

theorem exists_mem_iff {α β : Type} {R : α → β → Prop} {P : α → Prop} {Q : β → Prop}
    {xs : List α} {ys : List β} (h : xs.Forall₂ R ys) (hR : ∀ x y, R x y → (Q y ↔ P x)) :
    (∃ y ∈ ys, Q y) ↔ ∃ x ∈ xs, P x := by
  induction h with
  | nil => simp
  | cons hxy _ ih => rw [List.exists_mem_cons_iff, List.exists_mem_cons_iff, hR _ _ hxy, ih]

theorem solution_iff {f g : L2File} {a : ℕ → ℕ} (hvalid : g.Valid a ↔ f.Valid a)
    (h : f.clauses.Forall₂ (fun c d => d.isInBackground = c.isInBackground ∧
      (g.ClauseHolds a d ↔ f.ClauseHolds a c)) g.clauses) : g.Solution a ↔ f.Solution a := by
  have hviolated := exists_mem_iff (P := fun c => c.isInBackground = true ∧ ¬ f.ClauseHolds a c)
    (Q := fun d => d.isInBackground = true ∧ ¬ g.ClauseHolds a d) h
    fun c d ⟨hback, hholds⟩ => by rw [hback, hholds]
  unfold Solution
  refine and_congr hvalid ?_
  rw [← not_iff_not]
  push Not
  exact hviolated

theorem type_eq {f g : L2File} {mode : L2rVariable → L2rMode}
    (hvars : g.vars = f.vars.map fun x => { x with mode := mode x }) (v : ℕ) :
    g.type v = f.type v := by
  unfold L2File.type
  rw [hvars, List.getElem?_map, Option.map_map]
  rfl

theorem valid_iff {f g : L2File} {a : ℕ → ℕ} (hlength : g.vars.length = f.vars.length)
    (hn : ∀ v, g.nmembers v = f.nmembers v) : g.Valid a ↔ f.Valid a := by
  unfold Valid
  simp only [hlength, hn]

theorem nmembers_eq {f g : L2File} {mode : L2rVariable → L2rMode} (henums : g.enums = f.enums)
    (hvars : g.vars = f.vars.map fun x => { x with mode := mode x }) (v : ℕ) :
    g.nmembers v = f.nmembers v := by
  unfold nmembers
  rw [type_eq hvars, henums]

namespace SameButModes

variable {f g h : L2File}

theorem refl (f : L2File) : SameButModes f f :=
  ⟨rfl, rfl, rfl, rfl, fun _ x hx => ⟨x, hx, rfl, rfl, rfl⟩⟩

theorem trans (hfg : SameButModes f g) (hgh : SameButModes g h) : SameButModes f h := by
  refine ⟨hgh.enums.trans hfg.enums, hgh.props.trans hfg.props, hgh.clauses.trans hfg.clauses,
    hgh.length.trans hfg.length, fun v x hx => ?_⟩
  obtain ⟨y, hy, h₁, h₂, h₃⟩ := hfg.vars v x hx
  obtain ⟨z, hz, h₁', h₂', h₃'⟩ := hgh.vars v y hy
  exact ⟨z, hz, h₁'.trans h₁, h₂'.trans h₂, h₃'.trans h₃⟩

theorem type (h : SameButModes f g) (v : ℕ) : g.type v = f.type v := by
  unfold L2File.type
  cases hv : f.vars[v]? with
  | none =>
    have hlt : f.vars.length ≤ v := List.getElem?_eq_none_iff.mp hv
    rw [List.getElem?_eq_none (h.length ▸ hlt)]
  | some x =>
    obtain ⟨y, hy, hty, -, -⟩ := h.vars v x hv
    rw [hy]
    exact congrArg some hty

end SameButModes

theorem addTransition_same {f g : L2File} {x : L2rTransition} (h : f.addTransition x = .ok g) :
    SameButModes f g := by
  unfold addTransition at h
  cases hv : f.vars[x.mode]? with
  | none => simp [hv] at h
  | some v =>
    simp only [hv] at h
    split at h
    · obtain rfl := Except.ok.inj h
      refine ⟨rfl, rfl, rfl, List.length_set, fun w y hw => ?_⟩
      rcases eq_or_ne w x.mode with rfl | hne
      · obtain rfl := Option.some.inj (hv.symm.trans hw)
        have hlt := (List.getElem?_eq_some_iff.mp hv).1
        exact ⟨_, List.getElem?_set_self hlt, rfl, rfl, rfl⟩
      · exact ⟨y, (List.getElem?_set_ne hne.symm).trans hw, rfl, rfl, rfl⟩
    · cases h

/-- The file with `m` for the transitions of the variable `w`, which is `y`. -/
def setMode (f : L2File) (w : ℕ) (y : L2rVariable) (m : L2rMode) : L2File :=
  { f with vars := f.vars.set w { y with mode := m } }

theorem setMode_self {f : L2File} {w : ℕ} {y : L2rVariable} (hy : f.vars[w]? = some y) :
    f.setMode w y y.mode = f := by
  obtain ⟨hlt, hy⟩ := List.getElem?_eq_some_iff.mp hy
  have hset : f.vars.set w y = f.vars := hy ▸ List.set_getElem_self hlt
  exact congrArg (fun vars => { f with vars := vars }) hset

theorem setMode_setMode (f : L2File) (w : ℕ) (y : L2rVariable) (m m' : L2rMode) :
    (f.setMode w y m).setMode w { y with mode := m } m' = f.setMode w y m' := by
  simp [setMode, List.set_set]

theorem addTransition_eq {f : L2File} {x : L2rTransition} {y : L2rVariable}
    (hy : f.vars[x.mode]? = some y) (hk : y.kind = .mode) :
    f.addTransition x = .ok (f.setMode x.mode y (y.mode.addTransition x)) := by
  simp [addTransition, setMode, hy, hk]

theorem getVar_eq_ok {f : L2File} {v : ℕ} {x : L2rVariable} :
    f.getVar v = .ok x ↔ f.vars[v]? = some x := by
  unfold getVar
  cases f.vars[v]? with
  | none => simp
  | some y => simp

end L2File

namespace L2rMode

theorem insertFailure_last {x : L2rTransition} {xs : List L2rTransition}
    (h : ∀ y ∈ xs, y.rank ≤ x.rank) : insertFailure x xs = xs ++ [x] := by
  induction xs with
  | nil => rfl
  | cons y ys ih =>
    have hy := h y List.mem_cons_self
    rw [insertFailure, if_neg (by omega), ih fun z hz => h z (List.mem_cons_of_mem y hz)]
    rfl

theorem addTransition_nominal {xs : List L2rTransition} (h : ∀ x ∈ xs, x.isNominal = true)
    (m : L2rMode) :
    xs.foldl addTransition m = { m with nominal := xs.reverse ++ m.nominal } := by
  induction xs generalizing m with
  | nil => rfl
  | cons x xs ih =>
    rw [List.foldl_cons, ih fun y hy => h y (List.mem_cons_of_mem x hy)]
    simp [addTransition, h x List.mem_cons_self]

theorem addTransition_failure {xs : List L2rTransition} (h : ∀ x ∈ xs, x.isNominal = false)
    (hs : xs.Pairwise fun x y => x.rank ≤ y.rank) (m : L2rMode)
    (hm : ∀ y ∈ m.failure, ∀ x ∈ xs, y.rank ≤ x.rank) :
    xs.foldl addTransition m = { m with failure := m.failure ++ xs } := by
  induction xs generalizing m with
  | nil => simp
  | cons x xs ih =>
    obtain ⟨hx, hs⟩ := List.pairwise_cons.mp hs
    have hadd : m.addTransition x = { m with failure := m.failure ++ [x] } := by
      simp [addTransition, h x List.mem_cons_self,
        insertFailure_last fun y hy => hm y hy x List.mem_cons_self]
    rw [List.foldl_cons, hadd, ih (fun y hy => h y (List.mem_cons_of_mem x hy)) hs]
    · simp
    · intro y hy z hz
      rcases List.mem_append.mp hy with hy | hy
      · exact hm y hy z (List.mem_cons_of_mem x hz)
      · exact List.mem_singleton.mp hy ▸ hx z hz

theorem addTransition_all {nominal failure : List L2rTransition}
    (hn : ∀ x ∈ nominal, x.isNominal = true) (hf : ∀ x ∈ failure, x.isNominal = false)
    (hs : failure.Pairwise fun x y => x.rank ≤ y.rank) :
    (nominal ++ failure).foldl addTransition {} = ⟨nominal.reverse, failure⟩ := by
  rw [List.foldl_append, addTransition_nominal hn,
    addTransition_failure hf hs _ fun y hy => absurd hy List.not_mem_nil]
  simp

end L2rMode

namespace Mapping

variable {m m' : Mapping} {src dst i j n : ℕ}

theorem addMapping_new (h : m.getDestination i = none) (j : ℕ) :
    m.addMapping i j = .ok ((i, j) :: m) := by
  simp [addMapping, h]

theorem lookup_other (h : src ≠ i) : getDestination ((i, j) :: m) src = m.getDestination src := by
  simp [getDestination, List.lookup_cons, beq_eq_false_iff_ne.mpr h]

theorem lookup_self : getDestination ((i, j) :: m) i = some j := by
  simp [getDestination]

theorem addMapping_spec (h : m.addMapping src dst = .ok m') :
    m'.getDestination src = some dst ∧
      ∀ i j, m.getDestination i = some j → m'.getDestination i = some j := by
  unfold addMapping at h
  cases hs : m.getDestination src with
  | some d =>
    simp only [hs] at h
    split at h
    · obtain rfl := Except.ok.inj h
      subst d
      exact ⟨hs, fun i j hij => hij⟩
    · cases h
  | none =>
    simp only [hs] at h
    obtain rfl := Except.ok.inj h
    refine ⟨lookup_self, fun i j hij => ?_⟩
    have hne : i ≠ src := by
      rintro rfl
      exact Option.some_ne_none j (hij.symm.trans hs)
    exact (lookup_other hne).trans hij

theorem getDestination_identity : (identity n).getDestination i = if i < n then some i else none := by
  induction n with
  | zero => rfl
  | succ n ih =>
    unfold identity getDestination at ih ⊢
    rw [List.range_succ, List.map_append, List.lookup_append, ih]
    rcases lt_trichotomy i n with h | rfl | h
    · simp [h, Nat.lt_succ_of_lt h]
    · simp
    · have h₁ : ¬ i < n := by omega
      have h₂ : ¬ i < n + 1 := by omega
      have h₃ : i ≠ n := by omega
      simp [h₁, h₂, h₃]

end Mapping

namespace Translation

variable {source : L2File} {t t' : Translation} {m : Mapping} {b : ℕ → ℕ}

/-- The value of a variable of the source is that of its copy. -/
def pull (m : Mapping) (b : ℕ → ℕ) (v : ℕ) : ℕ := ((m.getDestination v).map b).getD 0

theorem pull_eq {v w : ℕ} (h : m.getDestination v = some w) : pull m b v = b w := by
  simp [pull, h]

theorem getDest_eq_ok {v w : ℕ} : getDest m v = .ok w ↔ m.getDestination v = some w := by
  unfold getDest
  cases m.getDestination v with
  | none => simp
  | some u => simp

theorem holds_make {v w : ℕ} {positive : Bool} :
    (L2rProposition.varVar (.make v positive w)).Holds b ↔ (b v = b w ↔ positive = true) := by
  unfold L2rPropVarVar.make
  split
  · exact Iff.rfl
  · simp only [L2rProposition.Holds, eq_comm]

theorem make_eq {p : L2rPropVarVar} (h : p.var ≤ p.otherVar) :
    L2rPropVarVar.make p.var p.positive p.otherVar = p := by
  unfold L2rPropVarVar.make
  split
  · rfl
  · next hlt =>
    have heq : p.var = p.otherVar := by omega
    cases p
    simp_all

theorem copyProp_holds {p q : L2rProposition} (h : copyProp m p = .ok q) :
    q.Holds b ↔ p.Holds (pull m b) := by
  cases p with
  | varVar p =>
    obtain ⟨v, hv, h⟩ := bind_eq_ok h
    obtain ⟨w, hw, h⟩ := bind_eq_ok h
    obtain rfl := Except.ok.inj h
    rw [holds_make]
    simp only [L2rProposition.Holds, pull_eq (getDest_eq_ok.mp hv), pull_eq (getDest_eq_ok.mp hw)]
  | varValue p =>
    obtain ⟨v, hv, h⟩ := bind_eq_ok h
    obtain rfl := Except.ok.inj h
    simp only [L2rProposition.Holds, pull_eq (getDest_eq_ok.mp hv)]

def made : L2rProposition → L2rProposition
  | .varVar p => .varVar (.make p.var p.positive p.otherVar)
  | .varValue p => .varValue p

theorem holds_made {a : ℕ → ℕ} {p : L2rProposition} : (made p).Holds a ↔ p.Holds a := by
  cases p with
  | varVar p => exact holds_make
  | varValue p => exact Iff.rfl

theorem made_eq {p : L2rProposition} (h : ∀ q, p = .varVar q → q.var ≤ q.otherVar) :
    made p = p := by
  cases p with
  | varVar p => exact congrArg L2rProposition.varVar (make_eq (h p rfl))
  | varValue p => rfl

theorem map_made {ps : List L2rProposition} (h : ∀ q, .varVar q ∈ ps → q.var ≤ q.otherVar) :
    ps.map made = ps :=
  (List.map_congr_left fun _ hp => made_eq fun q hq => h q (hq ▸ hp)).trans (List.map_id ps)

theorem copyProp_eq {p : L2rProposition}
    (hm : ∀ v < source.vars.length, m.getDestination v = some v) (hp : source.Typed p) :
    copyProp m p = .ok (made p) := by
  cases p with
  | varVar p =>
    have hv := getDest_eq_ok.mpr (hm p.var hp.1)
    have hw := getDest_eq_ok.mpr (hm p.otherVar hp.2.1)
    simp [copyProp, hv, hw, bind, Except.bind, pure, Except.pure, made]
  | varValue p =>
    have hv := getDest_eq_ok.mpr (hm p.var hp.1)
    simp [copyProp, hv, bind, Except.bind, pure, Except.pure, made]

theorem copyClause_identity {n : ℕ} {c c' : L2rClause} (h : copyClause (.identity n) c = .ok c') :
    c' = c := by
  obtain ⟨props, hp, h⟩ := bind_eq_ok h
  obtain rfl := Except.ok.inj h
  have heq : c.props = props := List.forall₂_eq_eq_eq ▸ (mapM_forall₂ hp).imp fun i j hij => by
    have hij := getDest_eq_ok.mp hij
    rw [Mapping.getDestination_identity] at hij
    split at hij
    · exact Option.some.inj hij
    · cases hij
  rw [← heq]

theorem clauseHolds_of_copies {dest : L2File} {c : L2rClause}
    (h : source.props.Forall₂ (fun p q => copyProp m p = .ok q) dest.props) :
    dest.ClauseHolds b c ↔ source.ClauseHolds (pull m b) c := by
  have hget (i : ℕ) : (∃ q, dest.props[i]? = some q ∧ q.Holds b) ↔
      ∃ p, source.props[i]? = some p ∧ p.Holds (pull m b) := by
    have hlen := h.length_eq
    rw [List.forall₂_iff_get] at h
    by_cases hi : i < source.props.length
    · have hi' : i < dest.props.length := hlen ▸ hi
      rw [List.getElem?_eq_getElem hi, List.getElem?_eq_getElem hi']
      simpa using copyProp_holds (b := b) (h.2 i hi hi')
    · rw [List.getElem?_eq_none (by omega), List.getElem?_eq_none (by omega)]
      simp
  simp only [L2File.clauseHolds_iff, hget]

theorem copyTransitions_same {x : L2rVariable} {v w : ℕ}
    (h : copyTransitions t x v w = .ok t') :
    L2File.SameButModes t.dest t'.dest ∧ t'.vars = t.vars ∧ t'.props = t.props ∧
      t'.clauses = t.clauses := by
  obtain ⟨y, -, h⟩ := bind_eq_ok h
  split at h
  · cases h
  split at h
  · cases h
  obtain ⟨dest, hd, h⟩ := bind_eq_ok h
  obtain rfl := Except.ok.inj h
  refine ⟨?_, rfl, rfl, rfl⟩
  refine foldlM_inv (fun dest => L2File.SameButModes t.dest dest) _ (fun y _ s s' hs hy => ?_)
    (.refl t.dest) hd
  obtain ⟨z, -, hz⟩ := bind_eq_ok hy
  exact hs.trans (L2File.addTransition_same hz)

theorem copyAllTransitions_same (h : copyAllTransitions source t = .ok t') :
    L2File.SameButModes t.dest t'.dest ∧ t'.vars = t.vars ∧ t'.props = t.props ∧
      t'.clauses = t.clauses := by
  refine foldlM_inv (fun u => L2File.SameButModes t.dest u.dest ∧ u.vars = t.vars ∧
    u.props = t.props ∧ u.clauses = t.clauses) _ (fun v _ s s' hs hv => ?_)
    ⟨.refl t.dest, rfl, rfl, rfl⟩ h
  obtain ⟨x, -, hv⟩ := bind_eq_ok hv
  split at hv
  · obtain ⟨w, -, hv⟩ := bind_eq_ok hv
    obtain ⟨h₁, h₂, h₃, h₄⟩ := copyTransitions_same hv
    obtain ⟨hs₁, hs₂, hs₃, hs₄⟩ := hs
    exact ⟨hs₁.trans h₁, h₂.trans hs₂, h₃.trans hs₃, h₄.trans hs₄⟩
  · exact Except.ok.inj hv ▸ hs

/-- A variable before its transitions are copied. -/
def bare (x : L2rVariable) : L2rVariable := { x with mode := {} }

/-- The first `k` variables are copied. -/
structure VarsCopied (source : L2File) (k : ℕ) (t : Translation) : Prop where
  dest : t.dest = { enums := source.enums, vars := (source.vars.take k).map bare }
  mapped : ∀ v < k, t.vars.getDestination v = some v
  unmapped : ∀ v, k ≤ v → t.vars.getDestination v = none
  props : t.props = []
  clauses : t.clauses = []

theorem copyVar_eq {k : ℕ} {x : L2rVariable} (hx : source.vars[k]? = some x)
    (hm : m.getDestination k = none) : copyVar source m k k = .ok ((k, k) :: m, bare x) := by
  have hget : source.getVar k = .ok x := L2File.getVar_eq_ok.mpr hx
  have hadd : m.addMapping k k = .ok ((k, k) :: m) := Mapping.addMapping_new hm k
  unfold copyVar addVarMapping
  simp only [hget, hadd, bind, Except.bind, pure, Except.pure, L2rVariable.setKind, or_true,
    if_true, L2rVariable.setInitial, bare]
  cases hi : x.initial <;> cases hk : x.kind <;> simp

theorem VarsCopied.step {k : ℕ} (hk : k < source.vars.length) (h : VarsCopied source k t) :
    ∃ t', (do
      let (m, x) ← copyVar source t.vars k k
      return { t with vars := m, dest := { t.dest with vars := t.dest.vars ++ [x] } }) = .ok t' ∧
      VarsCopied source (k + 1) t' := by
  have hx : source.vars[k]? = some source.vars[k] := List.getElem?_eq_getElem hk
  refine ⟨{ t with
      vars := (k, k) :: t.vars
      dest := { t.dest with vars := t.dest.vars ++ [bare source.vars[k]] } },
    by rw [copyVar_eq hx (h.unmapped k le_rfl)]; rfl, ?_, fun v hv => ?_, fun v hv => ?_,
    h.props, h.clauses⟩
  · simp only [h.dest, List.take_add_one, hx, List.map_append]
    rfl
  · rcases Nat.lt_succ_iff_lt_or_eq.mp hv with hv | rfl
    · exact (Mapping.lookup_other hv.ne).trans (h.mapped v hv)
    · exact Mapping.lookup_self
  · exact (Mapping.lookup_other (by omega)).trans (h.unmapped v (by omega))

theorem copyAllVars_spec (source : L2File) : ∃ t,
    copyAllVars source (copyAllEnums source {}) = .ok t ∧
      VarsCopied source source.vars.length t := by
  refine foldlM_range (VarsCopied source) (fun k hk t ht => ht.step hk) ?_
  exact ⟨rfl, fun v hv => absurd hv (Nat.not_lt_zero v), fun v _ => rfl, rfl, rfl⟩

/-- The copy of a transition of a file whose variables are copied as they are. -/
def transitionCopy (clauses : Mapping) (x : L2rTransition) : L2rTransition :=
  { x with clauses := x.clauses.map fun c => c.bind clauses.getDestination }

/-- The transitions of a mode are added in front, or by their ranks. -/
def modeCopy (clauses : Mapping) (m : L2rMode) : L2rMode :=
  ⟨(m.nominal.map (transitionCopy clauses)).reverse, m.failure.map (transitionCopy clauses)⟩

theorem foldlM_addTransition (clauses : Mapping) {vars : Mapping} {w : ℕ}
    (hw : vars.getDestination w = some w) {xs : List L2rTransition} (hxs : ∀ x ∈ xs, x.mode = w) {g : L2File} {y : L2rVariable}
    (hy : g.vars[w]? = some y) (hk : y.kind = .mode) :
    xs.foldlM (fun dest x => do dest.addTransition (← copyTransition vars clauses x)) g =
      .ok (g.setMode w y ((xs.map (transitionCopy clauses)).foldl L2rMode.addTransition y.mode)) := by
  induction xs generalizing g y with
  | nil => exact congrArg Except.ok (L2File.setMode_self hy).symm
  | cons x xs ih =>
    obtain rfl : x.mode = w := hxs x List.mem_cons_self
    have hlt := (List.getElem?_eq_some_iff.mp hy).1
    have hturn : (do g.addTransition (← copyTransition vars clauses x)) =
        .ok (g.setMode x.mode y (y.mode.addTransition (transitionCopy clauses x))) := by
      unfold copyTransition getDest
      rw [hw]
      exact L2File.addTransition_eq hy hk
    rw [List.foldlM_cons, hturn]
    have hset : (g.setMode x.mode y (y.mode.addTransition (transitionCopy clauses x))).vars[x.mode]?
        = some { y with mode := y.mode.addTransition (transitionCopy clauses x) } :=
      List.getElem?_set_self hlt
    refine (ih (fun z hz => hxs z (List.mem_cons_of_mem x hz)) hset hk).trans ?_
    rw [L2File.setMode_setMode]
    rfl

theorem copyTransitions_eq (hf : source.WellFormed) {k : ℕ} {x : L2rVariable}
    (hx : source.vars[k]? = some x) (hmode : x.kind = .mode)
    (hy : t.dest.vars[k]? = some (bare x)) (hmap : t.vars.getDestination k = some k) :
    copyTransitions t x k k =
      .ok { t with dest := t.dest.setMode k (bare x) (modeCopy t.clauses x.mode) } := by
  have hnominal := hf.nominal k x hx
  have hfailure := hf.failure k x hx
  have hmodes : ∀ y ∈ x.mode.nominal ++ x.mode.failure, y.mode = k := by
    intro y hy
    rcases List.mem_append.mp hy with hy | hy
    · exact (hnominal y hy).2.2.2.mode
    · exact (hfailure y hy).2.2.mode
  have hadd : ((x.mode.nominal ++ x.mode.failure).map (transitionCopy t.clauses)).foldl
      L2rMode.addTransition {} = modeCopy t.clauses x.mode := by
    rw [List.map_append, L2rMode.addTransition_all]
    · rfl
    · intro y hy
      obtain ⟨z, hz, rfl⟩ := List.mem_map.mp hy
      exact (hnominal z hz).2.1
    · intro y hy
      obtain ⟨z, hz, rfl⟩ := List.mem_map.mp hy
      exact (hfailure z hz).2.1
    · exact List.pairwise_map.mpr (hf.sorted x (List.mem_of_getElem? hx))
  have hall := foldlM_addTransition t.clauses hmap hmodes hy hmode
  have hget : t.dest.getVar k = .ok (bare x) := L2File.getVar_eq_ok.mpr hy
  have hkind : ¬ (bare x).kind ≠ .mode := not_not.mpr hmode
  have hnone : ¬ (bare x).mode.failure ≠ [] := not_not.mpr rfl
  unfold copyTransitions
  rw [hget]
  refine (if_neg hkind).trans ((if_neg hnone).trans ?_)
  rw [hall]
  exact congrArg (fun m => Except.ok { t with dest := t.dest.setMode k (bare x) m }) hadd

/-- The transitions of the first `k` variables are copied. -/
structure ModesCopied (source : L2File) (t : Translation) (k : ℕ) (t' : Translation) : Prop where
  enums : t'.dest.enums = t.dest.enums
  props : t'.dest.props = t.dest.props
  clauses : t'.dest.clauses = t.dest.clauses
  maps : t'.vars = t.vars ∧ t'.props = t.props ∧ t'.clauses = t.clauses
  done : ∀ (v : ℕ) (x : L2rVariable), v < k → source.vars[v]? = some x →
    t'.dest.vars[v]? = some { x with mode := modeCopy t.clauses x.mode }
  rest : ∀ v : ℕ, k ≤ v → t'.dest.vars[v]? = t.dest.vars[v]?

theorem ModesCopied.step {u : Translation} {k : ℕ} (h : ModesCopied source t k u)
    (hf : source.WellFormed) (hk : k < source.vars.length)
    (hdest : ∀ v : ℕ, t.dest.vars[v]? = (source.vars[v]?).map bare)
    (hmap : t.vars.getDestination k = some k) :
    ∃ u', (do
      let x ← source.getVar k
      if x.kind = VarKind.mode then copyTransitions u x k (← getDest u.vars k) else .ok u) = .ok u' ∧
      ModesCopied source t (k + 1) u' := by
  obtain ⟨x, hx⟩ : ∃ x, source.vars[k]? = some x := ⟨_, List.getElem?_eq_getElem hk⟩
  have hget : source.getVar k = .ok x := L2File.getVar_eq_ok.mpr hx
  have hy : u.dest.vars[k]? = some (bare x) := by
    rw [h.rest k le_rfl, hdest k, hx]
    rfl
  obtain ⟨hvars, hprops, hclauses⟩ := h.maps
  rw [← hvars] at hmap
  by_cases hmode : x.kind = .mode
  · refine ⟨{ u with dest := u.dest.setMode k (bare x) (modeCopy u.clauses x.mode) }, ?_, h.enums,
      h.props, h.clauses, ⟨hvars, hprops, hclauses⟩, fun v z hv hz => ?_, fun v hv => ?_⟩
    · rw [hget]
      refine (if_pos hmode).trans ?_
      rw [getDest_eq_ok.mpr hmap]
      exact copyTransitions_eq hf hx hmode hy hmap
    · rcases Nat.lt_succ_iff_lt_or_eq.mp hv with hv | rfl
      · exact (List.getElem?_set_ne hv.ne').trans (h.done v z hv hz)
      · obtain rfl := Option.some.inj (hx.symm.trans hz)
        rw [← hclauses]
        exact List.getElem?_set_self (List.getElem?_eq_some_iff.mp hy).1
    · exact (List.getElem?_set_ne (by omega)).trans (h.rest v (by omega))
  · refine ⟨u, ?_, h.enums, h.props, h.clauses, h.maps, fun v z hv hz => ?_,
      fun v hv => h.rest v (by omega)⟩
    · rw [hget]
      exact if_neg hmode
    · rcases Nat.lt_succ_iff_lt_or_eq.mp hv with hv | rfl
      · exact h.done v z hv hz
      · -- only modes have transitions
        obtain rfl := Option.some.inj (hx.symm.trans hz)
        have hnominal : x.mode.nominal = [] :=
          List.eq_nil_iff_forall_not_mem.mpr fun y hy => hmode (hf.nominal v x hx y hy).1
        have hfailure : x.mode.failure = [] :=
          List.eq_nil_iff_forall_not_mem.mpr fun y hy => hmode (hf.failure v x hx y hy).1
        simp [hy, bare, modeCopy, hnominal, hfailure]

theorem copyAllTransitions_spec (hf : source.WellFormed)
    (hdest : t.dest.vars = source.vars.map bare)
    (hmap : ∀ v < source.vars.length, t.vars.getDestination v = some v) :
    ∃ t', copyAllTransitions source t = .ok t' ∧
      ModesCopied source t source.vars.length t' := by
  refine foldlM_range (ModesCopied source t) (fun k hk u hu => ?_) ?_
  · exact hu.step hf hk (fun v => by rw [hdest, List.getElem?_map]) (hmap k hk)
  · exact ⟨rfl, rfl, rfl, ⟨rfl, rfl, rfl⟩, fun v x hv => absurd hv (Nat.not_lt_zero v),
      fun v _ => rfl⟩

theorem ModesCopied.vars (h : ModesCopied source t source.vars.length t')
    (hdest : t.dest.vars = source.vars.map bare) :
    t'.dest.vars = source.vars.map fun x => { x with mode := modeCopy t.clauses x.mode } := by
  apply List.ext_getElem?
  intro v
  rw [List.getElem?_map]
  cases hv : source.vars[v]? with
  | some x => exact h.done v x (List.getElem?_eq_some_iff.mp hv).1 hv
  | none =>
    rw [h.rest v (List.getElem?_eq_none_iff.mp hv), hdest, List.getElem?_map, hv]
    rfl

theorem transitionCopy_identity {x : L2rTransition} {n : ℕ}
    (h : ∀ c ∈ x.clauses, ∃ i < n, c = some i) : transitionCopy (.identity n) x = x := by
  have hmap : (x.clauses.map fun c => c.bind (Mapping.identity n).getDestination) = x.clauses := by
    refine (List.map_congr_left fun c hc => ?_).trans (List.map_id x.clauses)
    obtain ⟨i, hi, rfl⟩ := h c hc
    exact Mapping.getDestination_identity.trans (if_pos hi)
  unfold transitionCopy
  rw [hmap]

theorem modeCopy_identity (hf : source.WellFormed) {v : ℕ} {x : L2rVariable}
    (hx : source.vars[v]? = some x) :
    modeCopy (.identity source.clauses.length) x.mode = ⟨x.mode.nominal.reverse, x.mode.failure⟩ := by
  have hcopies {ys : List L2rTransition} (h : ∀ y ∈ ys, source.TypedTransition v y) :
      ys.map (transitionCopy (.identity source.clauses.length)) = ys :=
    (List.map_congr_left fun y hy => transitionCopy_identity (h y hy).clauses).trans (List.map_id ys)
  unfold modeCopy
  rw [hcopies fun y hy => (hf.nominal v x hx y hy).2.2.2,
    hcopies fun y hy => (hf.failure v x hx y hy).2.2]

theorem copyAllProps_eq (hf : source.WellFormed)
    (hm : ∀ v < source.vars.length, t.vars.getDestination v = some v) :
    copyAllProps source t = .ok { t with
      dest := { t.dest with props := source.props.map made }
      props := .identity source.props.length } := by
  have hprops := mapM_eq_map fun p hp => copyProp_eq hm (hf.props p hp)
  simp [copyAllProps, hprops, bind, Except.bind, pure, Except.pure]

theorem copyAllClauses_eq (hf : source.WellFormed) (ht : t.props = .identity source.props.length) :
    copyAllClauses source t = .ok { t with
      dest := { t.dest with clauses := source.clauses }
      clauses := .identity source.clauses.length } := by
  have hclause : ∀ c ∈ source.clauses, copyClause t.props c = .ok c := by
    intro c hc
    have hprops : c.props.mapM (getDest t.props) = .ok (c.props.map id) := mapM_eq_map fun i hi => by
      rw [ht]
      exact getDest_eq_ok.mpr (Mapping.getDestination_identity.trans (if_pos (hf.clauses c hc i hi)))
    rw [List.map_id] at hprops
    simp [copyClause, hprops, bind, Except.bind, pure, Except.pure]
  have hclauses : source.clauses.mapM (copyClause t.props) = .ok (source.clauses.map id) :=
    mapM_eq_map hclause
  rw [List.map_id] at hclauses
  simp [copyAllClauses, hclauses, bind, Except.bind, pure, Except.pure]

theorem modes_kept (hf : source.WellFormed) :
    (source.vars.map fun x => { x with mode := modeCopy (.identity source.clauses.length) x.mode }) =
      source.vars.map fun x => { x with mode := ⟨x.mode.nominal.reverse, x.mode.failure⟩ } := by
  refine List.map_congr_left fun x hx => ?_
  obtain ⟨v, hv⟩ := List.mem_iff_getElem?.mp hx
  rw [modeCopy_identity hf hv]

theorem copies_spec (hf : source.WellFormed) : ∃ t, (do
      let t ← copyAllVars source (copyAllEnums source {})
      let t ← copyAllProps source t
      let t ← copyAllClauses source t
      copyAllTransitions source t) = .ok t ∧
    t.dest = {
      enums := source.enums
      vars := source.vars.map fun x => { x with mode := ⟨x.mode.nominal.reverse, x.mode.failure⟩ }
      props := source.props.map made
      clauses := source.clauses } := by
  obtain ⟨t₁, h₁, hvars⟩ := copyAllVars_spec source
  have h₂ := copyAllProps_eq hf hvars.mapped
  have h₃ := copyAllClauses_eq (t := { t₁ with
    dest := { t₁.dest with props := source.props.map made }
    props := .identity source.props.length }) hf rfl
  have hdest := hvars.dest
  rw [List.take_length] at hdest
  obtain ⟨t, ht, hmodes⟩ := copyAllTransitions_spec (t := { t₁ with
    dest := { t₁.dest with props := source.props.map made, clauses := source.clauses }
    props := .identity source.props.length
    clauses := .identity source.clauses.length }) hf (by rw [hdest]) hvars.mapped
  refine ⟨t, ?_, ?_⟩
  · simp only [h₁, h₂, h₃, ht, bind, Except.bind]
  · have hkept := hmodes.vars (by rw [hdest])
    rw [modes_kept hf] at hkept
    calc t.dest = ⟨t.dest.enums, t.dest.vars, t.dest.props, t.dest.clauses⟩ := rfl
      _ = _ := by rw [hmodes.enums, hkept, hmodes.props, hmodes.clauses, hdest]

end Translation

end Livingstone
