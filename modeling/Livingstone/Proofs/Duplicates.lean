import Livingstone.Readers.Copies
import Livingstone.Readers.RemoveDuplicates

/-! Removing duplicates preserves a model if and only if what is removed is not missed: no
transition may refer to a tautology or to an empty clause, and an empty background clause,
which no assignment satisfies, must not have been the reason for there being no solutions. -/

namespace Livingstone.RemoveDuplicates

open Loop Translation

variable {f : L2File} {t t' : Translation} {a : ℕ → ℕ} {address : ℕ → ℕ}

def Trivial (p : L2rProposition) : Prop :=
  ∃ q, p = .varVar q ∧ q.var = q.otherVar ∧ q.positive = true

def Absurd (p : L2rProposition) : Prop :=
  ∃ q, p = .varVar q ∧ q.var = q.otherVar ∧ q.positive = false

def Tautological (f : L2File) (c : L2rClause) : Prop :=
  ∃ i ∈ c.props, ∃ p, f.props[i]? = some p ∧ Trivial p

/-- The clause says nothing but that variables differ from themselves. -/
def Unsatisfiable (f : L2File) (c : L2rClause) : Prop :=
  c.props ≠ [] ∧ ∀ i ∈ c.props, ∃ p, f.props[i]? = some p ∧ Absurd p

def Dropped (f : L2File) (c : L2rClause) : Prop := Tautological f c ∨ c.props = []

theorem useless_cases {p : L2rProposition} (h : useless p = true) : Trivial p ∨ Absurd p := by
  cases p with
  | varValue p => cases h
  | varVar p =>
    have h : p.var = p.otherVar := by simpa [useless] using h
    cases hp : p.positive with
    | true => exact Or.inl ⟨p, rfl, h, hp⟩
    | false => exact Or.inr ⟨p, rfl, h, hp⟩

theorem Trivial.holds {p : L2rProposition} (h : Trivial p) : p.Holds a := by
  obtain ⟨q, rfl, hq, hp⟩ := h
  simp [L2rProposition.Holds, hq, hp]

theorem Absurd.not_holds {p : L2rProposition} (h : Absurd p) : ¬ p.Holds a := by
  obtain ⟨q, rfl, hq, hp⟩ := h
  simp [L2rProposition.Holds, hq, hp]

theorem Trivial.useless {p : L2rProposition} (h : Trivial p) : useless p = true := by
  obtain ⟨q, rfl, hq, -⟩ := h
  simpa [RemoveDuplicates.useless] using hq

theorem Tautological.holds {c : L2rClause} (h : Tautological f c) : f.ClauseHolds a c := by
  obtain ⟨i, hi, p, hp, htriv⟩ := h
  exact L2File.clauseHolds_iff.mpr ⟨i, hi, p, hp, htriv.holds⟩

/-- The first `k` propositions have copies, but those of a variable and itself. -/
structure PropsCopied (f : L2File) (t : Translation) (k : ℕ) (t' : Translation) : Prop where
  dest : t'.dest = { t.dest with props := t'.dest.props }
  maps : t'.vars = t.vars ∧ t'.clauses = t.clauses
  mapped : ∀ i < k, ∀ p, f.props[i]? = some p → useless p = false →
    ∃ j q, t'.props.getDestination i = some j ∧ t'.dest.props[j]? = some q ∧
      ∀ a, q.Holds a ↔ p.Holds a
  unmapped : ∀ i, k ≤ i → t'.props.getDestination i = none

theorem hashableProp_spec {m : Mapping} {p : L2rProposition}
    (hm : ∀ v < f.vars.length, m.getDestination v = some v) (hp : f.Typed p)
    (hu : useless p = false) :
    ∃ q, hashableProp m p = .ok q ∧ ∀ a, q.Holds a ↔ p.Holds a := by
  cases p with
  | varValue p =>
    have hv := getDest_eq_ok.mpr (hm p.var hp.1)
    exact ⟨.varValue p, by simp [hashableProp, hv, bind, Except.bind, pure, Except.pure],
      fun a => Iff.rfl⟩
  | varVar p =>
    have hv := getDest_eq_ok.mpr (hm p.var hp.1)
    have hw := getDest_eq_ok.mpr (hm p.otherVar hp.2.1)
    have hne : p.var ≠ p.otherVar := by simpa [useless] using hu
    exact ⟨.varVar (.make p.var p.positive p.otherVar),
      by simp [hashableProp, hv, hw, bind, Except.bind, pure, Except.pure, hne],
      fun a => holds_make⟩

theorem PropsCopied.map {u : Translation} {k j : ℕ} {p q : L2rProposition}
    {props : List L2rProposition} (h : PropsCopied f t k u) (hp : f.props[k]? = some p)
    (hpre : u.dest.props <+: props) (hj : props[j]? = some q) (hq : ∀ a, q.Holds a ↔ p.Holds a) :
    PropsCopied f t (k + 1)
      { u with dest := { u.dest with props := props }, props := (k, j) :: u.props } := by
  refine ⟨?_, h.maps, fun i hi r hr hur => ?_, fun i hi => ?_⟩
  · exact congrArg (fun d : L2File => { d with props := props }) h.dest
  · rcases Nat.lt_succ_iff_lt_or_eq.mp hi with hi | rfl
    · obtain ⟨j', q', hj', hq', hh⟩ := h.mapped i hi r hr hur
      refine ⟨j', q', (Mapping.lookup_other hi.ne).trans hj', ?_, hh⟩
      obtain ⟨new, rfl⟩ := hpre
      exact (List.getElem?_append_left (List.getElem?_eq_some_iff.mp hq').1).trans hq'
    · obtain rfl := Option.some.inj (hp.symm.trans hr)
      exact ⟨j, q, Mapping.lookup_self, hj, hq⟩
  · exact (Mapping.lookup_other (by omega)).trans (h.unmapped i (by omega))

theorem PropsCopied.turn {u : Translation} {k : ℕ} {p : L2rProposition} (hf : f.WellFormed)
    (ht : ∀ v < f.vars.length, t.vars.getDestination v = some v) (h : PropsCopied f t k u)
    (hp : f.props[k]? = some p) :
    ∃ u', copyPropTurn u (p, k) = .ok u' ∧ PropsCopied f t (k + 1) u' := by
  have hnone := Mapping.addMapping_new (h.unmapped k le_rfl)
  unfold copyPropTurn
  cases hu : useless p with
  | true =>
    refine ⟨u, rfl, h.dest, h.maps, fun i hi q hq huq => ?_, fun i hi => h.unmapped i (by omega)⟩
    rcases Nat.lt_succ_iff_lt_or_eq.mp hi with hi | rfl
    · exact h.mapped i hi q hq huq
    · obtain rfl := Option.some.inj (hp.symm.trans hq)
      exact absurd (hu.symm.trans huq) (by decide)
  | false =>
    obtain ⟨q, hq, hholds⟩ := hashableProp_spec (fun v hv => h.maps.1 ▸ ht v hv)
      (hf.props p (List.mem_of_getElem? hp)) hu
    simp only [Bool.false_eq_true, if_false, hq, hnone, bind, Except.bind, pure, Except.pure]
    cases hidx : u.dest.props.idxOf? q with
    | some j =>
      have hj : u.dest.props[j]? = some q := by
        obtain ⟨hlt, hj, -⟩ := List.idxOf?_eq_some_iff.mp hidx
        exact (List.getElem?_eq_getElem hlt).trans (congrArg some hj)
      exact ⟨_, rfl, h.map hp (List.prefix_refl _) hj hholds⟩
    | none =>
      exact ⟨_, rfl, h.map hp (List.prefix_append _ _) List.getElem?_concat_length hholds⟩

theorem copyAllProps_spec (hf : f.WellFormed)
    (ht : ∀ v < f.vars.length, t.vars.getDestination v = some v) (hprops : t.props = []) :
    ∃ t', copyAllProps f t = .ok t' ∧ PropsCopied f t f.props.length t' := by
  have hloop := ReturnsIff.foldlM_zipIdx (fun _ => True) (PropsCopied f t) f.props 0
    (f := copyPropTurn) (s := t) (fun k p hp u hu => ?_) ?_
  · obtain ⟨t', ht', hcopied⟩ := hloop.returns fun _ _ => trivial
    exact ⟨t', ht', Nat.zero_add f.props.length ▸ hcopied⟩
  · rw [Nat.zero_add] at hu ⊢
    obtain ⟨u', hu', hcopied⟩ := hu.turn hf ht hp
    rw [hu']
    exact ⟨trivial, hcopied⟩
  · exact ⟨rfl, ⟨rfl, rfl⟩, fun i hi => absurd hi (Nat.not_lt_zero i),
      fun i _ => by rw [hprops]; rfl⟩

theorem mem_addProp {p q : ℕ} {props : List ℕ} :
    q ∈ addProp address p props ↔ q = p ∨ q ∈ props := by
  unfold addProp
  simp only
  split
  · next hk =>
    have hp : p ∈ props := List.mem_of_getElem? hk
    refine ⟨Or.inr, fun h => ?_⟩
    rcases h with rfl | h
    · exact hp
    · exact h
  · refine List.mem_insertIdx ?_
    have : props.findIdx (fun q => p = q ∨ address p < address q) ≤ props.length :=
      List.findIdx_le_length
    omega

/-- The propositions of the destination that `map` leads to are those of the source. -/
def Translates (f g : L2File) (map : Mapping) : Prop :=
  ∀ i p, f.props[i]? = some p → useless p = false →
    ∃ j q, map.getDestination i = some j ∧ g.props[j]? = some q ∧ ∀ a, q.Holds a ↔ p.Holds a

section
variable {g : L2File} {map : Mapping} {is props : List ℕ} {unsatisfiable : Option ℕ} {i : ℕ}
  {p : L2rProposition}

theorem gather_general {j : ℕ} (hp : f.props[i]? = some p) (hu : useless p = false)
    (hj : map.getDestination i = some j) : gather f address map (i :: is) props unsatisfiable =
      gather f address map is (addProp address j props) unsatisfiable := by
  have hget : f.getProp i = .ok p := boundsCheckAccess_eq_ok.mpr hp
  cases p with
  | varValue p => simp [gather, hget, hj, bind, Except.bind]
  | varVar p =>
    have hne : p.var ≠ p.otherVar := by simpa [useless] using hu
    simp [gather, hget, hj, hne, bind, Except.bind]

theorem gather_trivial (hp : f.props[i]? = some p) (ht : Trivial p) :
    gather f address map (i :: is) props unsatisfiable = .ok [] := by
  obtain ⟨q, rfl, hq, hpos⟩ := ht
  have hget : f.getProp i = .ok (.varVar q) := boundsCheckAccess_eq_ok.mpr hp
  simp [gather, hget, hq, hpos, bind, Except.bind]

theorem gather_absurd (address : ℕ → ℕ) (map : Mapping) (is props : List ℕ)
    (unsatisfiable : Option ℕ) (hp : f.props[i]? = some p) (ha : Absurd p) :
    ∃ v, gather f address map (i :: is) props unsatisfiable =
      gather f address map is props (some v) := by
  obtain ⟨q, rfl, hq, hpos⟩ := ha
  have hget : f.getProp i = .ok (.varVar q) := boundsCheckAccess_eq_ok.mpr hp
  exact ⟨q.var, by simp [gather, hget, hq, hpos, bind, Except.bind]⟩

theorem gather_tautological (hmap : Translates f g map) (his : ∀ i ∈ is, i < f.props.length)
    (h : ∃ i ∈ is, ∃ p, f.props[i]? = some p ∧ Trivial p) :
    gather f address map is props unsatisfiable = .ok [] := by
  induction is generalizing props unsatisfiable with
  | nil =>
    obtain ⟨i, hi, -⟩ := h
    cases hi
  | cons i is ih =>
    have hrest := fun j hj => his j (List.mem_cons_of_mem i hj)
    obtain ⟨p, hp⟩ : ∃ p, f.props[i]? = some p :=
      ⟨_, List.getElem?_eq_getElem (his i List.mem_cons_self)⟩
    by_cases ht : Trivial p
    · exact gather_trivial hp ht
    have htail : ∃ i ∈ is, ∃ p, f.props[i]? = some p ∧ Trivial p := by
      obtain ⟨j, hj, q, hq, htriv⟩ := h
      rcases List.mem_cons.mp hj with rfl | hj
      · exact absurd (Option.some.inj (hp.symm.trans hq) ▸ htriv) ht
      · exact ⟨j, hj, q, hq, htriv⟩
    cases hu : useless p with
    | false =>
      obtain ⟨j, q, hj, -, -⟩ := hmap i p hp hu
      rw [gather_general hp hu hj]
      exact ih hrest htail
    | true =>
      obtain ⟨v, hv⟩ :=
        gather_absurd address map is props unsatisfiable hp ((useless_cases hu).resolve_left ht)
      rw [hv]
      exact ih hrest htail

theorem gather_spec (hmap : Translates f g map) (his : ∀ i ∈ is, i < f.props.length)
    (h : ∀ i ∈ is, ∀ p, f.props[i]? = some p → ¬ Trivial p) :
    ReturnsIff (gather f address map is props unsatisfiable)
      ((is = [] ∧ unsatisfiable = none) ∨ props ≠ [] ∨
        ∃ i ∈ is, ∃ p, f.props[i]? = some p ∧ useless p = false)
      fun ps => (ps = [] ↔ is = [] ∧ props = []) ∧
        ∀ a, g.ClauseHolds a ⟨ps, false⟩ ↔
          g.ClauseHolds a ⟨props, false⟩ ∨ f.ClauseHolds a ⟨is, false⟩ := by
  induction is generalizing props unsatisfiable with
  | nil =>
    have hnone : ∀ a, ¬ f.ClauseHolds a ⟨[], false⟩ := fun a ⟨p, hp, _⟩ => by cases hp
    cases unsatisfiable with
    | none => exact ⟨Or.inl ⟨rfl, rfl⟩, by simp, fun a => by simp [hnone a]⟩
    | some v =>
      unfold gather
      simp only
      split
      · next hlen =>
        exact ⟨Or.inr (Or.inl (List.ne_nil_of_length_pos hlen)), by simp,
          fun a => by simp [hnone a]⟩
      · next hlen =>
        have hnil : props = [] := List.eq_nil_of_length_eq_zero (by omega)
        intro hroom
        rcases hroom with ⟨-, hv⟩ | hne | ⟨i, hi, -⟩
        · cases hv
        · exact hne hnil
        · cases hi
  | cons i is ih =>
    have hrest := fun j hj => his j (List.mem_cons_of_mem i hj)
    have htail := fun j hj => h j (List.mem_cons_of_mem i hj)
    obtain ⟨p, hp⟩ : ∃ p, f.props[i]? = some p :=
      ⟨_, List.getElem?_eq_getElem (his i List.mem_cons_self)⟩
    have hcons (a : ℕ → ℕ) : f.ClauseHolds a ⟨i :: is, false⟩ ↔
        p.Holds a ∨ f.ClauseHolds a ⟨is, false⟩ := by
      simp [L2File.clauseHolds_iff, hp]
    cases hu : useless p with
    | false =>
      obtain ⟨j, q, hj, hq, hholds⟩ := hmap i p hp hu
      have hadd : addProp address j props ≠ [] :=
        List.ne_nil_of_mem (mem_addProp.mpr (Or.inl rfl))
      rw [gather_general hp hu hj]
      refine (ih hrest htail).congr ⟨fun _ => ?_, fun _ => Or.inr (Or.inl hadd)⟩
        fun ps _ hps => ⟨by simp [hps.1, hadd], fun a => ?_⟩
      · exact Or.inr (Or.inr ⟨i, List.mem_cons_self, p, hp, hu⟩)
      · have hnew : g.ClauseHolds a ⟨addProp address j props, false⟩ ↔
            g.ClauseHolds a ⟨props, false⟩ ∨ p.Holds a := by
          simp only [L2File.clauseHolds_iff, mem_addProp, or_and_right, exists_or, exists_eq_left,
            hq, Option.some.injEq, exists_eq_left', hholds, or_comm]
        rw [hps.2 a, hnew, hcons, or_assoc]
    | true =>
      have hab := (useless_cases hu).resolve_left (h i List.mem_cons_self p hp)
      obtain ⟨v, hv⟩ := gather_absurd address map is props unsatisfiable hp hab
      rw [hv]
      refine (ih hrest htail).congr ?_ fun ps hroom hps => ⟨?_, fun a => ?_⟩
      · simp [hp, hu]
      · -- without other propositions the loop would have failed
        have hne : ¬ (is = [] ∧ props = []) := by
          rintro ⟨rfl, rfl⟩
          simp at hroom
        simp [hps.1, hne]
      · rw [hps.2 a, hcons, or_iff_right hab.not_holds]

end

theorem hashableClause_spec (address : ℕ → ℕ) {g : L2File} {map : Mapping} {c : L2rClause}
    (hmap : Translates f g map) (hc : ∀ i ∈ c.props, i < f.props.length) :
    ReturnsIff (hashableClause f address map c) (¬ Unsatisfiable f c) fun ps =>
      (ps = [] ↔ Dropped f c) ∧
        (ps ≠ [] → ∀ a, g.ClauseHolds a ⟨ps, false⟩ ↔ f.ClauseHolds a c) := by
  unfold hashableClause
  by_cases ht : Tautological f c
  · rw [gather_tautological hmap hc ht]
    refine ⟨fun hu => ?_, ⟨fun _ => Or.inl ht, fun _ => rfl⟩, fun hne => absurd rfl hne⟩
    obtain ⟨i, hi, p, hp, q, rfl, -, hpos⟩ := ht
    obtain ⟨p', hp', q', rfl, -, hneg⟩ := hu.2 i hi
    obtain rfl : q = q' := by simpa using hp.symm.trans hp'
    simp [hpos] at hneg
  · have hnone : ∀ i ∈ c.props, ∀ p, f.props[i]? = some p → ¬ Trivial p :=
      fun i hi p hp htriv => ht ⟨i, hi, p, hp, htriv⟩
    refine (gather_spec hmap hc hnone).congr ⟨fun hroom hu => ?_, fun hu => ?_⟩
      fun ps _ hps => ⟨?_, fun _ a => ?_⟩
    · rcases hroom with ⟨hnil, -⟩ | hne | ⟨i, hi, p, hp, huse⟩
      · exact hu.1 hnil
      · exact hne rfl
      · obtain ⟨p', hp', q, rfl, hq, -⟩ := hu.2 i hi
        obtain rfl := Option.some.inj (hp.symm.trans hp')
        simp [useless, hq] at huse
    · by_contra hroom
      simp only [and_true, ne_eq, not_true_eq_false, false_or, not_or, not_exists, not_and] at hroom
      refine hu ⟨hroom.1, fun i hi => ?_⟩
      obtain ⟨p, hp⟩ : ∃ p, f.props[i]? = some p := ⟨_, List.getElem?_eq_getElem (hc i hi)⟩
      have huse : useless p = true := by simpa using hroom.2 i hi p hp
      exact ⟨p, hp, (useless_cases huse).resolve_left (hnone i hi p hp)⟩
    · simp [hps.1, Dropped, ht]
    · rw [hps.2 a]
      have hnot : ¬ g.ClauseHolds a ⟨[], false⟩ := fun ⟨p, hp, _⟩ => by cases hp
      rw [or_iff_right hnot]
      exact Iff.rfl

def Means (f g : L2File) (c d : L2rClause) : Prop := ∀ a, g.ClauseHolds a d ↔ f.ClauseHolds a c

/-- The first `k` clauses have copies, but those that are dropped. -/
structure ClausesCopied (f : L2File) (t : Translation) (k : ℕ) (t' : Translation) : Prop where
  dest : t'.dest = { t.dest with clauses := t'.dest.clauses }
  maps : t'.vars = t.vars ∧ t'.props = t.props
  mapped : ∀ i < k, ∀ c, f.clauses[i]? = some c → ¬ Dropped f c →
    ∃ j d, t'.clauses.getDestination i = some j ∧ t'.dest.clauses[j]? = some d ∧
      Means f t.dest c d ∧ (c.isInBackground = true → d.isInBackground = true)
  unmapped : ∀ i, (k ≤ i ∨ ∃ c, f.clauses[i]? = some c ∧ Dropped f c) →
    t'.clauses.getDestination i = none
  origin : ∀ d ∈ t'.dest.clauses, d.isInBackground = true →
    ∃ c ∈ f.clauses, c.isInBackground = true ∧ ¬ Dropped f c ∧ Means f t.dest c d

/-- The clauses once the one numbered `j` is put in the background, if `b` says so. -/
def marked (b : Bool) (j : ℕ) (ds : List L2rClause) : List L2rClause :=
  if b then ds.modify j fun d => { d with isInBackground := true } else ds

theorem getElem?_marked (b : Bool) (j i : ℕ) (ds : List L2rClause) :
    (marked b j ds)[i]? =
      (ds[i]?).map fun d => { d with isInBackground := d.isInBackground || (b && j == i) } := by
  unfold marked
  cases b with
  | false => simp
  | true =>
    rw [if_pos rfl, List.getElem?_modify]
    cases ds[i]? with
    | none => rfl
    | some d =>
      by_cases hj : j = i
      · simp [hj]
      · simp [hj, beq_eq_false_iff_ne.mpr hj]

theorem ClausesCopied.map {u : Translation} {k j : ℕ} {c d : L2rClause} {ds : List L2rClause}
    (h : ClausesCopied f t k u) (hc : f.clauses[k]? = some c) (hd : ¬ Dropped f c)
    (hpre : u.dest.clauses <+: ds)
    (hnew : ∀ e ∈ ds, e ∈ u.dest.clauses ∨ e.isInBackground = false) (hj : ds[j]? = some d)
    (hm : Means f t.dest c d) :
    ClausesCopied f t (k + 1) { u with
      dest := { u.dest with clauses := marked c.isInBackground j ds }
      clauses := (k, j) :: u.clauses } := by
  refine ⟨?_, h.maps, fun i hi b hb hbd => ?_, fun i hi => ?_, fun e he hback => ?_⟩
  · exact congrArg (fun g : L2File => { g with clauses := marked c.isInBackground j ds }) h.dest
  · rcases Nat.lt_succ_iff_lt_or_eq.mp hi with hi | rfl
    · obtain ⟨j', d', hj', hd', hm', hb'⟩ := h.mapped i hi b hb hbd
      have hds : ds[j']? = some d' := by
        obtain ⟨new, rfl⟩ := hpre
        exact (List.getElem?_append_left (List.getElem?_eq_some_iff.mp hd').1).trans hd'
      have hmark := getElem?_marked c.isInBackground j j' ds
      rw [hds] at hmark
      refine ⟨j', _, (Mapping.lookup_other hi.ne).trans hj', hmark, hm', fun hbb => ?_⟩
      simp [hb' hbb]
    · obtain rfl := Option.some.inj (hc.symm.trans hb)
      have hmark := getElem?_marked c.isInBackground j j ds
      rw [hj] at hmark
      refine ⟨j, _, Mapping.lookup_self, hmark, hm, fun hbb => ?_⟩
      simp [hbb]
  · have hne : i ≠ k := by
      rintro rfl
      rcases hi with hi | ⟨b, hb, hbd⟩
      · omega
      · exact hd (Option.some.inj (hc.symm.trans hb) ▸ hbd)
    refine (Mapping.lookup_other hne).trans (h.unmapped i ?_)
    rcases hi with hi | hi
    · exact Or.inl (by omega)
    · exact Or.inr hi
  · obtain ⟨i, hi⟩ := List.mem_iff_getElem?.mp he
    rw [getElem?_marked, Option.map_eq_some_iff] at hi
    obtain ⟨d', hd', rfl⟩ := hi
    cases hold : d'.isInBackground with
    | true =>
      rcases hnew d' (List.mem_of_getElem? hd') with hmem | hfalse
      · exact h.origin d' hmem hold
      · simp [hold] at hfalse
    | false =>
      have hci : c.isInBackground = true ∧ j = i := by simpa [hold] using hback
      obtain ⟨hcb, rfl⟩ := hci
      obtain rfl := Option.some.inj (hj.symm.trans hd')
      exact ⟨c, List.mem_of_getElem? hc, hcb, hd, hm⟩

theorem ClausesCopied.turn {u : Translation} {k : ℕ} {c : L2rClause}
    (hmap : Translates f t.dest t.props) (h : ClausesCopied f t k u)
    (hc : f.clauses[k]? = some c) (hprops : ∀ i ∈ c.props, i < f.props.length) :
    ReturnsIff (copyClauseTurn f address u (c, k)) (¬ Unsatisfiable f c)
      (ClausesCopied f t (k + 1)) := by
  have hspec := hashableClause_spec address (h.maps.2 ▸ hmap) hprops
  have hnone := Mapping.addMapping_new (h.unmapped k (Or.inl le_rfl))
  unfold copyClauseTurn
  cases hps : hashableClause f address u.props c with
  | error e =>
    rw [hps] at hspec
    exact hspec
  | ok ps =>
    obtain ⟨hsat, hdrop, hmeans⟩ := hspec.of_eq hps
    simp only [bind, Except.bind, pure, Except.pure]
    split
    · next hlen =>
      -- the clause is dropped
      have hd := hdrop.mp (List.eq_nil_of_length_eq_zero hlen)
      refine ⟨hsat, h.dest, h.maps, fun i hi b hb hbd => ?_, fun i hi => ?_, h.origin⟩
      · rcases Nat.lt_succ_iff_lt_or_eq.mp hi with hi | rfl
        · exact h.mapped i hi b hb hbd
        · exact absurd (Option.some.inj (hc.symm.trans hb) ▸ hd) hbd
      · rcases hi with hi | hi
        · exact h.unmapped i (Or.inl (by omega))
        · exact h.unmapped i (Or.inr hi)
    · next hlen =>
      have hne : ps ≠ [] := fun hnil => hlen (hnil ▸ rfl)
      have hd : ¬ Dropped f c := fun hd => hne (hdrop.mpr hd)
      split
      · next j hidx =>
        obtain ⟨hlt, hj, -⟩ := List.findIdx?_eq_some_iff_getElem.mp hidx
        have hj : u.dest.clauses[j].props = ps := by simpa using hj
        have hm : Means f t.dest c u.dest.clauses[j] := fun a => by
          rw [← hmeans hne a, ← hj]
          exact Iff.rfl
        simp only [addClauseMapping, hnone, bind, Except.bind, pure, Except.pure]
        exact ⟨hsat, h.map hc hd (List.prefix_refl _) (fun e he => Or.inl he)
          (List.getElem?_eq_getElem hlt) hm⟩
      · simp only [addClauseMapping, hnone, bind, Except.bind, pure, Except.pure]
        refine ⟨hsat, h.map hc hd (List.prefix_append _ _) (fun e he => ?_)
          List.getElem?_concat_length (hmeans hne)⟩
        rcases List.mem_append.mp he with he | he
        · exact Or.inl he
        · exact Or.inr (List.mem_singleton.mp he ▸ rfl)

theorem copyAllClauses_spec (address : ℕ → ℕ) (hf : f.WellFormed) (hmap : Translates f t.dest t.props)
    (hclauses : t.clauses = []) (hdest : t.dest.clauses = []) :
    ReturnsIff (copyAllClauses f address t) (∀ c ∈ f.clauses, ¬ Unsatisfiable f c)
      (ClausesCopied f t f.clauses.length) := by
  have hloop := ReturnsIff.foldlM_zipIdx (fun c => ¬ Unsatisfiable f c) (ClausesCopied f t)
    f.clauses 0 (f := copyClauseTurn f address) (s := t) (fun k c hc u hu => ?_) ?_
  · rw [Nat.zero_add] at hloop
    exact hloop
  · rw [Nat.zero_add] at hu ⊢
    exact hu.turn hmap hc (hf.clauses c (List.mem_of_getElem? hc))
  · exact ⟨rfl, ⟨rfl, rfl⟩, fun i hi => absurd hi (Nat.not_lt_zero i),
      fun i _ => by rw [hclauses]; rfl, fun d hd => absurd (hdest ▸ hd) List.not_mem_nil⟩

structure Copied (f : L2File) (t : Translation) : Prop where
  enums : t.dest.enums = f.enums
  vars : t.dest.vars = f.vars.map fun x => { x with mode := modeCopy t.clauses x.mode }
  mapped : ∀ (i : ℕ) (c : L2rClause), f.clauses[i]? = some c → ¬ Dropped f c →
    ∃ j d, t.clauses.getDestination i = some j ∧ t.dest.clauses[j]? = some d ∧
      Means f t.dest c d ∧ (c.isInBackground = true → d.isInBackground = true)
  dropped : ∀ (i : ℕ) (c : L2rClause), f.clauses[i]? = some c → Dropped f c →
    t.clauses.getDestination i = none
  origin : ∀ d ∈ t.dest.clauses, d.isInBackground = true →
    ∃ c ∈ f.clauses, c.isInBackground = true ∧ ¬ Dropped f c ∧ Means f t.dest c d

theorem Means.congr {g g' : L2File} {c d : L2rClause} (h : g'.props = g.props)
    (hm : Means f g c d) : Means f g' c d := by
  intro a
  have heq : g'.ClauseHolds a d ↔ g.ClauseHolds a d := by
    unfold L2File.ClauseHolds L2File.clauseProps
    rw [h]
  exact heq.trans (hm a)

theorem ClausesCopied.copied (h : ClausesCopied f t f.clauses.length t')
    (hdest : t'.dest.vars = f.vars.map bare) (henums : t.dest.enums = f.enums) {u : Translation}
    (hu : ModesCopied f t' f.vars.length u) : Copied f u := by
  have hprops : u.dest.props = t.dest.props := by rw [hu.props, h.dest]
  refine ⟨?_, ?_, fun i c hc hd => ?_, fun i c hc hd => ?_, fun d hd hb => ?_⟩
  · rw [hu.enums, h.dest, henums]
  · rw [hu.maps.2.2]
    exact hu.vars hdest
  · obtain ⟨j, d, hj, hdj, hm, hb⟩ := h.mapped i (List.getElem?_eq_some_iff.mp hc).1 c hc hd
    rw [hu.maps.2.2, hu.clauses]
    exact ⟨j, d, hj, hdj, hm.congr hprops, hb⟩
  · rw [hu.maps.2.2]
    exact h.unmapped i (Or.inr ⟨c, hc, hd⟩)
  · obtain ⟨c, hc, hcb, hcd, hm⟩ := h.origin d (hu.clauses ▸ hd) hb
    exact ⟨c, hc, hcb, hcd, hm.congr hprops⟩

/-- A model is translated if and only if no clause says nothing but that variables differ
from themselves. -/
theorem translate_copied (address : ℕ → ℕ) (hf : f.WellFormed) :
    ReturnsIff (translate f address) (∀ c ∈ f.clauses, ¬ Unsatisfiable f c) (Copied f) := by
  obtain ⟨t₁, h₁, hvars⟩ := copyAllVars_spec f
  obtain ⟨t₂, h₂, hprops⟩ := copyAllProps_spec hf hvars.mapped hvars.props
  have hmap : Translates f t₂.dest t₂.props :=
    fun i p hp hu => hprops.mapped i (List.getElem?_eq_some_iff.mp hp).1 p hp hu
  have hdest₂ : t₂.dest.vars = f.vars.map bare ∧ t₂.dest.enums = f.enums ∧
      t₂.dest.clauses = [] := by
    rw [hprops.dest, hvars.dest, List.take_length]
    exact ⟨rfl, rfl, rfl⟩
  have hclauses := copyAllClauses_spec address hf hmap
    (hprops.maps.2.trans hvars.clauses) hdest₂.2.2
  have heq : translate f address =
      copyAllClauses f address t₂ >>= fun t => copyAllTransitions f t := by
    unfold translate
    simp only [h₁, h₂, bind, Except.bind]
  rw [heq]
  refine (hclauses.bind fun t₃ _ h₃ => ?_).congr (and_iff_left trivial) fun t _ ht => ht
  have hv₃ : t₃.dest.vars = f.vars.map bare := by
    rw [h₃.dest]
    exact hdest₂.1
  have hm₃ : ∀ v < f.vars.length, t₃.vars.getDestination v = some v := by
    rw [h₃.maps.1, hprops.maps.1]
    exact hvars.mapped
  obtain ⟨t, ht, hmodes⟩ := copyAllTransitions_spec hf hv₃ hm₃
  rw [ht]
  exact ⟨trivial, h₃.copied hv₃ hdest₂.2.1 hmodes⟩

/-- The reference `j` in `g` is to a clause that says what the one `i` refers to says. -/
def SameClause (f g : L2File) (i j : Option ℕ) : Prop :=
  ∃ k c l d, i = some k ∧ f.clauses[k]? = some c ∧ j = some l ∧ g.clauses[l]? = some d ∧
    Means f g c d

structure SameTransition (f g : L2File) (x y : L2rTransition) : Prop where
  same : y = { x with clauses := y.clauses }
  clauses : x.clauses.Forall₂ (SameClause f g) y.clauses

/-- The background has the same solutions, and the transitions refer to clauses that say
the same. Those to nominal modes come in the opposite order. -/
structure Preserves (f : L2File) (t : Translation) : Prop where
  solutions : ∀ a, t.dest.Solution a ↔ f.Solution a
  transitions : ∀ (v : ℕ) (x : L2rVariable), f.vars[v]? = some x → ∃ y, t.dest.vars[v]? = some y ∧
    x.mode.nominal.reverse.Forall₂ (SameTransition f t.dest) y.mode.nominal ∧
    x.mode.failure.Forall₂ (SameTransition f t.dest) y.mode.failure

structure Removable (f : L2File) : Prop where
  satisfiable : ∀ c ∈ f.clauses, ¬ Unsatisfiable f c
  referenced : ∀ (v : ℕ) (x : L2rVariable), f.vars[v]? = some x →
    ∀ y ∈ x.mode.nominal ++ x.mode.failure, ∀ (i : ℕ) (c : L2rClause), some i ∈ y.clauses →
      f.clauses[i]? = some c → ¬ Dropped f c
  empty : ∀ c ∈ f.clauses, c.isInBackground = true → c.props = [] →
    ¬ ∃ a, f.Valid a ∧ ∀ d ∈ f.clauses, d.isInBackground = true → d.props ≠ [] →
      f.ClauseHolds a d

theorem not_clauseHolds_nil {c : L2rClause} (h : c.props = []) : ¬ f.ClauseHolds a c := by
  rw [L2File.clauseHolds_iff, h]
  simp

namespace Copied

variable (h : Copied f t)
include h

/-- The solutions of the destination are those of the clauses that are not empty. -/
theorem solution_iff : t.dest.Solution a ↔ f.Valid a ∧
    ∀ c ∈ f.clauses, c.isInBackground = true → c.props ≠ [] → f.ClauseHolds a c := by
  unfold L2File.Solution
  rw [L2File.valid_iff (by rw [h.vars, List.length_map]) (L2File.nmembers_eq h.enums h.vars)]
  refine and_congr_right fun _ => ⟨fun hall c hc hb hne => ?_, fun hall d hd hb => ?_⟩
  · by_cases ht : Tautological f c
    · exact ht.holds
    · have hd : ¬ Dropped f c := not_or.mpr ⟨ht, hne⟩
      obtain ⟨i, hi⟩ := List.mem_iff_getElem?.mp hc
      obtain ⟨j, d, -, hdj, hm, hdb⟩ := h.mapped i c hi hd
      exact (hm a).mp (hall d (List.mem_of_getElem? hdj) (hdb hb))
  · obtain ⟨c, hc, hcb, hcd, hm⟩ := h.origin d hd hb
    exact (hm a).mpr (hall c hc hcb fun hnil => hcd (Or.inr hnil))

theorem solutions_iff : (∀ a, t.dest.Solution a ↔ f.Solution a) ↔
    ∀ c ∈ f.clauses, c.isInBackground = true → c.props = [] →
      ¬ ∃ a, f.Valid a ∧ ∀ d ∈ f.clauses, d.isInBackground = true → d.props ≠ [] →
        f.ClauseHolds a d := by
  simp only [h.solution_iff]
  constructor
  · intro hall c hc hb hnil ⟨a, ha⟩
    exact not_clauseHolds_nil hnil (((hall a).mp ha).2 c hc hb)
  · intro hempty a
    refine ⟨fun ha => ⟨ha.1, fun c hc hb => ?_⟩, fun ha => ⟨ha.1, fun c hc hb _ => ha.2 c hc hb⟩⟩
    by_cases hnil : c.props = []
    · exact absurd ⟨a, ha⟩ (hempty c hc hb hnil)
    · exact ha.2 c hc hb hnil

theorem sameTransition_iff {v : ℕ} {x : L2rTransition} (hx : f.TypedTransition v x) :
    SameTransition f t.dest x (transitionCopy t.clauses x) ↔
      ∀ (i : ℕ) (c : L2rClause), some i ∈ x.clauses → f.clauses[i]? = some c → ¬ Dropped f c := by
  have hforall : (transitionCopy t.clauses x).clauses =
      x.clauses.map fun c => c.bind t.clauses.getDestination := rfl
  constructor
  · intro hs i c hi hc hd
    have hsame := hs.clauses
    rw [hforall, List.forall₂_map_right_iff, List.forall₂_same] at hsame
    obtain ⟨k, c', l, d, hk, -, hl, -⟩ := hsame (some i) hi
    have hnone := h.dropped i c hc hd
    rw [Option.bind_some, hnone] at hl
    cases hl
  · intro hall
    refine ⟨rfl, ?_⟩
    rw [hforall, List.forall₂_map_right_iff, List.forall₂_same]
    intro i hi
    obtain ⟨k, hk, rfl⟩ := hx.clauses i hi
    have hc : f.clauses[k]? = some f.clauses[k] := List.getElem?_eq_getElem hk
    obtain ⟨j, d, hj, hdj, hm, -⟩ := h.mapped k _ hc (hall k _ hi hc)
    exact ⟨k, _, j, d, rfl, hc, hj, hdj, hm⟩

theorem transitions_iff (hf : f.WellFormed) :
    (∀ (v : ℕ) (x : L2rVariable), f.vars[v]? = some x → ∃ y, t.dest.vars[v]? = some y ∧
      x.mode.nominal.reverse.Forall₂ (SameTransition f t.dest) y.mode.nominal ∧
      x.mode.failure.Forall₂ (SameTransition f t.dest) y.mode.failure) ↔
    ∀ (v : ℕ) (x : L2rVariable), f.vars[v]? = some x →
      ∀ y ∈ x.mode.nominal ++ x.mode.failure, ∀ (i : ℕ) (c : L2rClause), some i ∈ y.clauses →
        f.clauses[i]? = some c → ¬ Dropped f c := by
  refine forall_congr' fun v => forall_congr' fun x => forall_congr' fun hx => ?_
  have hy : t.dest.vars[v]? = some { x with mode := modeCopy t.clauses x.mode } := by
    rw [h.vars, List.getElem?_map, hx]
    rfl
  simp only [hy, Option.some.injEq, exists_eq_left', modeCopy, ← List.map_reverse,
    List.forall₂_map_right_iff, List.forall₂_same, List.mem_reverse, List.forall_mem_append]
  refine and_congr (forall_congr' fun y => forall_congr' fun hy => ?_)
    (forall_congr' fun y => forall_congr' fun hy => ?_)
  · exact h.sameTransition_iff (hf.nominal v x hx y hy).2.2.2
  · exact h.sameTransition_iff (hf.failure v x hx y hy).2.2

end Copied

/-- A model is translated and preserved if and only if nothing that is removed is missed. -/
theorem translate_preserves_meaning_iff (address : ℕ → ℕ) (hf : f.WellFormed) :
    (∃ t, translate f address = .ok t ∧ Preserves f t) ↔ Removable f := by
  have hspec := translate_copied address hf
  constructor
  · intro ⟨t, ht, hsol, htrans⟩
    obtain ⟨hsat, hcop⟩ := hspec.of_eq ht
    exact ⟨hsat, (hcop.transitions_iff hf).mp htrans, hcop.solutions_iff.mp hsol⟩
  · intro ⟨hsat, href, hempty⟩
    obtain ⟨t, ht, hcop⟩ := hspec.returns hsat
    exact ⟨t, ht, hcop.solutions_iff.mpr hempty, (hcop.transitions_iff hf).mpr href⟩

/-- A mode variable with one transition, which has the clause `c` for its condition. -/
def moving (c : L2rClause) : L2File where
  enums := [2]
  vars := [⟨0, .mode, some 0, ⟨[⟨0, some 0, 1, [some 0], true, 0⟩], []⟩⟩]
  props := [.varVar ⟨0, true, 0⟩, .varValue ⟨0, true, 1⟩]
  clauses := [c]

theorem translate_preserves_moving :
    ∃ t, translate (moving ⟨[1], false⟩) id = .ok t ∧ Preserves (moving ⟨[1], false⟩) t := by
  refine (translate_preserves_meaning_iff id (by decide)).mpr ⟨fun c hc hu => ?_, ?_, ?_⟩
  · obtain rfl := List.mem_singleton.mp hc
    obtain ⟨p, hp, q, rfl, -⟩ := hu.2 1 (by decide)
    cases hp
  · intro v x _ y _ i c _ hc hd
    obtain rfl := List.mem_singleton.mp (List.mem_of_getElem? hc)
    rcases hd with ⟨j, hj, p, hp, q, rfl, -⟩ | hnil
    · obtain rfl := List.mem_singleton.mp hj
      cases hp
    · cases hnil
  · intro c hc hb
    obtain rfl := List.mem_singleton.mp hc
    cases hb

/-- The condition is always true and is removed, which leaves a null pointer. -/
theorem translate_misses_tautology :
    ¬ ∀ f, f.WellFormed → ∃ t, translate f id = .ok t ∧ Preserves f t := by
  intro h
  have hf : (moving ⟨[0], false⟩).WellFormed := by decide
  obtain ⟨t, ht, -, htrans⟩ := h (moving ⟨[0], false⟩) hf
  have href := (((translate_copied id hf).of_eq ht).2.transitions_iff hf).mp htrans
  exact href 0 _ rfl _ List.mem_cons_self 0 _ List.mem_cons_self rfl
    (Or.inl ⟨0, List.mem_cons_self, _, rfl, _, rfl, rfl, rfl⟩)

end Livingstone.RemoveDuplicates
