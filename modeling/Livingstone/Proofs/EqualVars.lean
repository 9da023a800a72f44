import Livingstone.Lib.Classes
import Livingstone.Readers.Copies
import Livingstone.Readers.MergeEqVars

/-! Merging variables preserves the model if and only if no background clause is a single
proposition that two variables differ, unless the model makes them equal: the sign of
such a proposition is not looked at. -/

namespace Livingstone.MergeEqVars

open Loop Classes Relation

variable {f : L2File} {cs cs' : List EqClass} {c c' o : EqClass} {v w : ℕ}

/-- A background clause consists of the comparison `p`. -/
def UnitComparison (f : L2File) (p : L2rPropVarVar) : Prop :=
  ∃ c ∈ f.clauses, c.isInBackground = true ∧ f.clauseProps c = [.varVar p]

/-- A background clause says that the variables are equal. -/
def Equated (f : L2File) (v w : ℕ) : Prop :=
  ∃ p, UnitComparison f p ∧ p.positive = true ∧ p.var = v ∧ p.otherVar = w

def Compared (f : L2File) (v w : ℕ) : Prop :=
  ∃ p, UnitComparison f p ∧ p.var = v ∧ p.otherVar = w

theorem mem_equivalences {p : L2rPropVarVar} : p ∈ equivalences f ↔ UnitComparison f p := by
  unfold equivalences UnitComparison
  simp only [List.mem_reverse, List.mem_filterMap, Option.ite_none_right_eq_some]
  have hget (c : L2rClause) : getEquivalence f c = some p ↔ f.clauseProps c = [.varVar p] := by
    unfold getEquivalence
    split
    · next q hq => simp [hq]
    · next hne =>
      simp only [reduceCtorEq, false_iff]
      exact fun h => hne p h
  simp only [hget]

def Known (f : L2File) (v : ℕ) : Prop := ∃ x, f.vars[v]? = some x ∧ x.kind ≠ .unknown

/-- The representative is one of the members, and the only one that can have a kind. -/
structure Settled (f : L2File) (c : EqClass) : Prop where
  mem : c.representative ∈ c.members
  known : ∀ v ∈ c.members, Known f v → v = c.representative

theorem settled_singleton : Settled f (singleton v) :=
  ⟨List.mem_singleton_self v, fun _ hw _ => List.mem_singleton.mp hw⟩

theorem add_spec (h : add f c v = .ok c') (hc : Settled f c) :
    c'.members = v :: c.members ∧ Settled f c' := by
  obtain ⟨x, hx, h⟩ := bind_eq_ok h
  have hx := L2File.getVar_eq_ok.mp hx
  split at h
  · obtain ⟨r, hr, h⟩ := bind_eq_ok h
    have hr := L2File.getVar_eq_ok.mp hr
    split at h
    · next hunknown =>
      obtain rfl := Except.ok.inj h
      refine ⟨rfl, List.mem_cons_self, fun w hw hk => ?_⟩
      rcases List.mem_cons.mp hw with rfl | hw
      · rfl
      · obtain rfl := hc.known w hw hk
        obtain ⟨y, hy, hk⟩ := hk
        obtain rfl := Option.some.inj (hr.symm.trans hy)
        exact absurd hunknown hk
    · cases h
  · next hunknown =>
    obtain rfl := Except.ok.inj h
    refine ⟨rfl, List.mem_cons_of_mem v hc.mem, fun w hw hk => ?_⟩
    rcases List.mem_cons.mp hw with rfl | hw
    · obtain ⟨y, hy, hk⟩ := hk
      obtain rfl := Option.some.inj (hx.symm.trans hy)
      exact absurd hk hunknown
    · exact hc.known w hw hk

theorem absorb_spec (h : absorb f c o = .ok c') (hc : Settled f c) :
    c'.members.Perm (o.members ++ c.members) ∧ Settled f c' := by
  refine foldlM_visited (fun done c' => c'.members.Perm (done ++ c.members) ∧ Settled f c')
    o.members (fun done v _ d d' hd hd' => ?_) ⟨.refl _, hc⟩ h
  obtain ⟨hmem, hset⟩ := add_spec hd' hd.2
  refine ⟨?_, hset⟩
  rw [hmem, List.append_assoc]
  exact (hd.1.cons v).trans List.perm_middle.symm

/-- The classes once the comparisons `ps` are seen. -/
structure Merged (f : L2File) (ps : List L2rPropVarVar) (cs : List EqClass) : Prop where
  partitions : Partitions EqClass.members cs (List.range f.vars.length)
  settled : ∀ c ∈ cs, Settled f c
  joined : ∀ p ∈ ps, Together EqClass.members cs p.var p.otherVar
  related : ∀ v w, Together EqClass.members cs v w → EqvGen (Compared f) v w

theorem Merged.ne_nil {ps : List L2rPropVarVar} (h : Merged f ps cs) :
    ∀ c ∈ cs, c.members ≠ [] := fun c hc => List.ne_nil_of_mem (h.settled c hc).mem

theorem merged_singletons :
    Merged f [] ((List.range f.vars.length).reverse.map singleton) := by
  refine ⟨?_, fun c hc => ?_, fun p hp => absurd hp List.not_mem_nil, fun v w h => ?_⟩
  · exact (Partitions.singletons fun v => rfl).trans (List.reverse_perm _)
  · obtain ⟨v, -, rfl⟩ := List.mem_map.mp hc
    exact settled_singleton
  · obtain ⟨c, hc, hv, hw⟩ := h
    obtain ⟨u, -, rfl⟩ := List.mem_map.mp hc
    obtain rfl := List.mem_singleton.mp hv
    obtain rfl := List.mem_singleton.mp hw
    exact .refl _

theorem getEquivalenceClass_spec (h : Partitions EqClass.members cs (List.range f.vars.length))
    (hv : v < f.vars.length) : ∃ c ∈ cs, v ∈ c.members ∧ getEquivalenceClass cs v = (c, cs) := by
  obtain ⟨c, hc, hmem⟩ := h.mem.mp (List.mem_range.mpr hv)
  unfold getEquivalenceClass
  cases hfind : cs.find? fun c => v ∈ c.members with
  | none => exact absurd hmem (by simpa using List.find?_eq_none.mp hfind c hc)
  | some d =>
    exact ⟨d, List.mem_of_find?_eq_some hfind, by simpa using List.find?_some hfind, rfl⟩

theorem Merged.mergeTurn {ps : List L2rPropVarVar} {p : L2rPropVarVar} (h : Merged f ps cs)
    (hp : UnitComparison f p) (hv : p.var < f.vars.length) (hw : p.otherVar < f.vars.length)
    (ht : mergeTurn f cs p = .ok cs') : Merged f (ps ++ [p]) cs' := by
  have hn : (List.range f.vars.length).Nodup := List.nodup_range
  obtain ⟨c₁, h₁, hv₁, he₁⟩ := getEquivalenceClass_spec h.partitions hv
  obtain ⟨c₂, h₂, hw₂, he₂⟩ := getEquivalenceClass_spec h.partitions hw
  simp only [MergeEqVars.mergeTurn, he₁, he₂] at ht
  split at ht
  · next hne =>
    obtain ⟨c, hc, ht⟩ := bind_eq_ok ht
    obtain ⟨hmem, hset⟩ := absorb_spec hc (h.settled c₁ h₁)
    obtain ⟨rest, hcs, hcs'⟩ := h.partitions.replace_filter hn h.ne_nil h₁ h₂ hne hmem
    rw [← Except.ok.inj ht] at *
    have hnew : ∀ d ∈ (cs.replace c₁ c).filter (· ≠ c₂), d = c ∨ d ∈ cs := by
      intro d hd
      rcases List.mem_cons.mp (hcs'.mem_iff.mp hd) with rfl | hd
      · exact Or.inl rfl
      · exact Or.inr (hcs.mem_iff.mpr (by simp [hd]))
    have hjoined : Together EqClass.members ((cs.replace c₁ c).filter (· ≠ c₂)) p.var
        p.otherVar :=
      ⟨c, hcs'.mem_iff.mpr List.mem_cons_self, hmem.mem_iff.mpr (List.mem_append_right _ hv₁),
        hmem.mem_iff.mpr (List.mem_append_left _ hw₂)⟩
    refine ⟨?_, fun d hd => ?_, fun q hq => ?_, fun u v => ?_⟩
    · exact (hcs'.flatMap_right _).trans (h.partitions.of_perm hcs hmem)
    · rcases hnew d hd with rfl | hd
      · exact hset
      · exact h.settled d hd
    · rcases List.mem_append.mp hq with hq | hq
      · exact (h.joined q hq).merge hcs hcs' hmem
      · exact List.mem_singleton.mp hq ▸ hjoined
    · exact Together.of_merge hcs hcs' hmem h.related hv₁ hw₂ ⟨p, hp, rfl, rfl⟩
  · next heq =>
    obtain rfl := Except.ok.inj ht
    obtain rfl := not_not.mp heq
    refine ⟨h.partitions, h.settled, fun q hq => ?_, h.related⟩
    rcases List.mem_append.mp hq with hq | hq
    · exact h.joined q hq
    · exact List.mem_singleton.mp hq ▸ ⟨c₁, h₁, hv₁, hw₂⟩

theorem UnitComparison.typed {p : L2rPropVarVar} (hf : f.WellFormed) (h : UnitComparison f p) :
    f.Typed (.varVar p) := by
  obtain ⟨c, -, -, hc⟩ := h
  have hp : L2rProposition.varVar p ∈ f.clauseProps c := hc ▸ List.mem_singleton_self _
  obtain ⟨i, -, hi⟩ := List.mem_filterMap.mp hp
  exact hf.props _ (List.mem_of_getElem? hi)

theorem findEquivalences_merged (hf : f.WellFormed) (h : findEquivalences f = .ok cs) :
    Merged f (equivalences f) cs := by
  refine foldlM_visited (fun ps cs => Merged f ps cs) _ (fun ps p hp cs cs' hm ht => ?_)
    merged_singletons h
  have hp := mem_equivalences.mp hp
  have ht' := hp.typed hf
  exact hm.mergeTurn hp ht'.1 ht'.2.1 ht

/-- Two variables are in one class if and only if the comparisons relate them. -/
theorem together_iff (hf : f.WellFormed) (h : findEquivalences f = .ok cs)
    (hv : v < f.vars.length) : Together EqClass.members cs v w ↔ EqvGen (Compared f) v w := by
  have hm := findEquivalences_merged hf h
  refine ⟨hm.related v w, fun hvw => ?_⟩
  refine Together.of_eqvGen hm.partitions List.nodup_range (fun u u' hu => ?_) hvw
    (List.mem_range.mpr hv)
  obtain ⟨p, hp, rfl, rfl⟩ := hu
  exact hm.joined p (mem_equivalences.mpr hp)

/-- `x` has what the variables `vs` have, as far as one of them has it. -/
structure Gathers {β : Type} (f : L2File) (get : L2rVariable → Option β) (vs : Set ℕ)
    (x : L2rVariable) : Prop where
  all : ∀ v ∈ vs, ∀ y b, f.vars[v]? = some y → get y = some b → get x = some b
  only : ∀ b, get x = some b → ∃ v ∈ vs, ∃ y, f.vars[v]? = some y ∧ get y = some b

def knownKind (x : L2rVariable) : Option VarKind := if x.kind = .unknown then none else some x.kind

/-- Of the variables `vs`, `x` has the kind and the initial value. -/
structure Carries (f : L2File) (vs : Set ℕ) (x : L2rVariable) : Prop where
  kind : Gathers f knownKind vs x
  initial : Gathers f (·.initial) vs x

theorem Gathers.insert {β : Type} {get : L2rVariable → Option β} {vs : Set ℕ}
    {x x' y : L2rVariable} (h : Gathers f get vs x) (hy : f.vars[v]? = some y)
    (hx' : (get y = none ∧ get x' = get x) ∨
      ∃ b, get y = some b ∧ (get x = none ∨ get x = some b) ∧ get x' = some b) :
    Gathers f get (insert v vs) x' := by
  rcases hx' with ⟨hnone, heq⟩ | ⟨b, hb, hold, hnew⟩
  · refine ⟨fun w hw z b hz hb => ?_, fun b hb => ?_⟩
    · rcases hw with rfl | hw
      · obtain rfl := Option.some.inj (hy.symm.trans hz)
        exact absurd (hnone.symm.trans hb) (Option.some_ne_none b).symm
      · exact heq.trans (h.all w hw z b hz hb)
    · obtain ⟨w, hw, hz⟩ := h.only b (heq ▸ hb)
      exact ⟨w, Or.inr hw, hz⟩
  · refine ⟨fun w hw z b' hz hb' => ?_, fun b' hb' => ?_⟩
    · rcases hw with rfl | hw
      · obtain rfl := Option.some.inj (hy.symm.trans hz)
        exact hnew.trans (hb.symm.trans hb')
      · have hx := h.all w hw z b' hz hb'
        rcases hold with hold | hold
        · exact absurd (hold.symm.trans hx) (Option.some_ne_none b').symm
        · exact hnew.trans (hold.symm.trans hx)
    · exact ⟨v, Or.inl rfl, y, hy, hb.trans (hnew.symm.trans hb')⟩

theorem setKind_spec {x x' : L2rVariable} {id : ℕ} {k : VarKind} (h : x.setKind id k = .ok x') :
    x' = { x with kind := k } ∧ (x.kind = .unknown ∨ x.kind = k) := by
  unfold L2rVariable.setKind at h
  split at h
  · next hk => exact ⟨(Except.ok.inj h).symm, hk⟩
  · cases h

theorem setInitial_spec {x x' : L2rVariable} {id i : ℕ} (h : x.setInitial id i = .ok x') :
    x' = { x with initial := some i } ∧ (x.initial = none ∨ x.initial = some i) := by
  unfold L2rVariable.setInitial at h
  split at h
  · next hi => exact ⟨(Except.ok.inj h).symm, hi⟩
  · cases h

theorem addVarMapping_eq (m : Mapping) (x : L2rVariable) (id v : ℕ) :
    Translation.addVarMapping f m x id v = f.getVar v >>= fun y =>
      (if y.kind ≠ .unknown then x.setKind id y.kind else .ok x) >>= fun x =>
      (match y.initial with
        | some i => x.setInitial id i
        | none => .ok x) >>= fun x => m.addMapping v id >>= fun m => pure (m, x) := by
  unfold Translation.addVarMapping
  congr 1
  funext y
  cases y.initial <;> cases y.kind <;> rfl

theorem addVarMapping_spec {vs : Set ℕ} {m m' : Mapping} {x x' : L2rVariable} {id : ℕ}
    (h : Translation.addVarMapping f m x id v = .ok (m', x')) (hx : Carries f vs x) :
    m'.getDestination v = some id ∧
      (∀ i j, m.getDestination i = some j → m'.getDestination i = some j) ∧
      x'.type = x.type ∧ Carries f (insert v vs) x' := by
  rw [addVarMapping_eq] at h
  obtain ⟨y, hy, h⟩ := bind_eq_ok h
  have hy := L2File.getVar_eq_ok.mp hy
  obtain ⟨x₁, hx₁, h⟩ := bind_eq_ok h
  obtain ⟨x₂, hx₂, h⟩ := bind_eq_ok h
  obtain ⟨m₁, hm, h⟩ := bind_eq_ok h
  obtain ⟨rfl, rfl⟩ := Prod.mk.inj (Except.ok.inj h)
  obtain ⟨hdst, hmono⟩ := Mapping.addMapping_spec hm
  have hkind : x₁.type = x.type ∧ x₁.initial = x.initial ∧
      ((knownKind y = none ∧ knownKind x₁ = knownKind x) ∨
        ∃ k, knownKind y = some k ∧ (knownKind x = none ∨ knownKind x = some k) ∧
          knownKind x₁ = some k) := by
    split at hx₁
    · next hknown =>
      obtain ⟨rfl, hk⟩ := setKind_spec hx₁
      refine ⟨rfl, rfl, Or.inr ⟨y.kind, if_neg hknown, ?_, if_neg hknown⟩⟩
      rcases hk with hk | hk
      · exact Or.inl (if_pos hk)
      · exact Or.inr (hk ▸ if_neg (hk ▸ hknown))
    · next hunknown =>
      obtain rfl := Except.ok.inj hx₁
      exact ⟨rfl, rfl, Or.inl ⟨if_pos (not_not.mp hunknown), rfl⟩⟩
  have hini : x₂.type = x₁.type ∧ knownKind x₂ = knownKind x₁ ∧
      ((y.initial = none ∧ x₂.initial = x₁.initial) ∨
        ∃ i, y.initial = some i ∧ (x₁.initial = none ∨ x₁.initial = some i) ∧
          x₂.initial = some i) := by
    cases hi : y.initial with
    | none =>
      rw [hi] at hx₂
      obtain rfl := Except.ok.inj hx₂
      exact ⟨rfl, rfl, Or.inl ⟨rfl, rfl⟩⟩
    | some i =>
      rw [hi] at hx₂
      obtain ⟨rfl, hold⟩ := setInitial_spec hx₂
      exact ⟨rfl, rfl, Or.inr ⟨i, rfl, hold, rfl⟩⟩
  obtain ⟨hty₁, hsame, hk⟩ := hkind
  obtain ⟨hty₂, hsame', hi⟩ := hini
  refine ⟨hdst, hmono, hty₂.trans hty₁, ?_, ?_⟩
  · rw [← hsame'] at hk
    exact hx.kind.insert hy hk
  · rw [hsame] at hi
    exact hx.initial.insert hy hi

structure CopyOf (f : L2File) (m : Mapping) (id : ℕ) (c : EqClass) (x : L2rVariable) : Prop where
  type : f.type c.representative = some x.type
  carries : Carries f {v | v ∈ c.members} x
  mapped : ∀ v ∈ c.members, m.getDestination v = some id

theorem copyClass_spec {m m' : Mapping} {id : ℕ} {x : L2rVariable} (hc : Settled f c)
    (h : copyClass f m id c = .ok (m', x)) :
    (∀ i j, m.getDestination i = some j → m'.getDestination i = some j) ∧ CopyOf f m' id c x := by
  obtain ⟨⟨m₁, x₁⟩, h₁, h⟩ := bind_eq_ok h
  obtain ⟨y, hy, h₁⟩ := bind_eq_ok h₁
  have hy := L2File.getVar_eq_ok.mp hy
  -- the copy starts from the representative's own kind and initial value
  have hstart : Carries f {c.representative}
      { type := y.type, kind := y.kind, initial := y.initial } := by
    have hget {β : Type} (get : L2rVariable → Option β)
        (hg : get { type := y.type, kind := y.kind, initial := y.initial } = get y) :
        Gathers f get {c.representative}
          { type := y.type, kind := y.kind, initial := y.initial } := by
      refine ⟨fun v hv z b hz hb => ?_, fun b hb => ⟨_, rfl, y, hy, hg ▸ hb⟩⟩
      obtain rfl : v = c.representative := hv
      rw [hg, Option.some.inj (hy.symm.trans hz)]
      exact hb
    exact ⟨hget _ rfl, hget _ rfl⟩
  obtain ⟨-, hmono₁, hty₁, hcar₁⟩ := addVarMapping_spec h₁ hstart
  rw [Set.pair_eq_singleton] at hcar₁
  have hloop := foldlM_visited (fun done (s : Mapping × L2rVariable) =>
    (∀ i j, m.getDestination i = some j → s.1.getDestination i = some j) ∧
      s.2.type = y.type ∧ Carries f (insert c.representative {v | v ∈ done}) s.2 ∧
      ∀ v ∈ done, s.1.getDestination v = some id) c.members
    (fun done v _ s s' hs hs' => by
      obtain ⟨hmono, hty, hcar, hmap⟩ := hs
      obtain ⟨hdst, hmono', hty', hcar'⟩ := addVarMapping_spec hs' hcar
      refine ⟨fun i j hij => hmono' i j (hmono i j hij), hty'.trans hty, ?_, fun w hw => ?_⟩
      · convert hcar' using 1
        ext w
        simp only [List.mem_append, List.mem_singleton, Set.mem_insert_iff, Set.mem_ofPred_eq]
        tauto
      · rcases List.mem_append.mp hw with hw | hw
        · exact hmono' w id (hmap w hw)
        · exact List.mem_singleton.mp hw ▸ hdst)
    ⟨hmono₁, hty₁, by simpa using hcar₁, fun v hv => absurd hv List.not_mem_nil⟩ h
  obtain ⟨hmono, hty, hcar, hmap⟩ := hloop
  refine ⟨hmono, ?_, ?_, hmap⟩
  · have hty : x.type = y.type := hty
    simp [L2File.type, hy, hty]
  · have hrep : insert c.representative {v | v ∈ c.members} = {v | v ∈ c.members} :=
      Set.insert_eq_of_mem hc.mem
    exact hrep ▸ hcar

/-- The variables of the destination are the copies of the classes, in their order. -/
theorem copyAllVars_spec {t t' : Translation} (hf : f.WellFormed) (ht : t.dest.vars = [])
    (h : copyAllVars f t = .ok t') : ∃ cs, findEquivalences f = .ok cs ∧
      t'.dest = { t.dest with vars := t'.dest.vars } ∧ t'.dest.vars.length = cs.length ∧
      ∀ i c, cs[i]? = some c → ∃ x, t'.dest.vars[i]? = some x ∧ CopyOf f t'.vars i c x := by
  obtain ⟨cs, hcs, h⟩ := bind_eq_ok h
  have hset := (findEquivalences_merged hf hcs).settled
  refine ⟨cs, hcs, ?_⟩
  refine foldlM_visited (fun done (t' : Translation) =>
    t'.dest = { t.dest with vars := t'.dest.vars } ∧ t'.dest.vars.length = done.length ∧
      ∀ i c, done[i]? = some c → ∃ x, t'.dest.vars[i]? = some x ∧ CopyOf f t'.vars i c x) cs
    (fun done c hc s s' hs hs' => ?_) ⟨rfl, by rw [ht]; rfl, fun i c hi => by simp at hi⟩ h
  obtain ⟨⟨m, x⟩, hcopy, hs'⟩ := bind_eq_ok hs'
  obtain rfl := Except.ok.inj hs'
  obtain ⟨hdest, hlen, hcopies⟩ := hs
  obtain ⟨hmono, hx⟩ := copyClass_spec (hset c hc) hcopy
  refine ⟨?_, by simp [hlen], fun i d hi => ?_⟩
  · rw [hdest]
  · rcases lt_trichotomy i done.length with hlt | rfl | hgt
    · rw [List.getElem?_append_left hlt] at hi
      obtain ⟨y, hy, hd⟩ := hcopies i d hi
      have hlt' : i < s.dest.vars.length := hlen ▸ hlt
      exact ⟨y, (List.getElem?_append_left hlt').trans hy, hd.type, hd.carries,
        fun v hv => hmono v i (hd.mapped v hv)⟩
    · rw [List.getElem?_concat_length] at hi
      obtain rfl := Option.some.inj hi
      refine ⟨x, ?_, hlen ▸ hx⟩
      rw [← hlen]
      exact List.getElem?_concat_length
    · rw [List.getElem?_eq_none (by simp; omega)] at hi
      cases hi

structure Copied (f : L2File) (t : Translation) (cs : List EqClass) : Prop where
  merged : Merged f (equivalences f) cs
  length : t.dest.vars.length = cs.length
  copy : ∀ i c, cs[i]? = some c → ∃ x, t.dest.vars[i]? = some x ∧ CopyOf f t.vars i c x
  enums : t.dest.enums = f.enums
  props : f.props.Forall₂ (fun p q => Translation.copyProp t.vars p = .ok q) t.dest.props
  clauses : t.dest.clauses = f.clauses

theorem CopyOf.same_kind {m : Mapping} {i : ℕ} {x y : L2rVariable} (h : CopyOf f m i c x)
    (hty : y.type = x.type) (hk : y.kind = x.kind) (hi : y.initial = x.initial) :
    CopyOf f m i c y := by
  have hget {β : Type} {get : L2rVariable → Option β} (hg : get y = get x)
      (hx : Gathers f get {v | v ∈ c.members} x) : Gathers f get {v | v ∈ c.members} y := by
    obtain ⟨h₁, h₂⟩ := hx
    rw [← hg] at h₁ h₂
    exact ⟨h₁, h₂⟩
  refine ⟨hty ▸ h.type, ⟨hget ?_ h.carries.kind, hget hi h.carries.initial⟩, h.mapped⟩
  simp only [knownKind, hk]

theorem copied {t : Translation} (hf : f.WellFormed) (h : translate f = .ok t) :
    ∃ cs, findEquivalences f = .ok cs ∧ Copied f t cs := by
  obtain ⟨t₁, h₁, h⟩ := bind_eq_ok h
  obtain ⟨t₂, h₂, h⟩ := bind_eq_ok h
  obtain ⟨t₃, h₃, h⟩ := bind_eq_ok h
  obtain ⟨cs, hcs, hdest, hlen, hcopy⟩ := copyAllVars_spec hf rfl h₁
  obtain ⟨props, hprops, h₂⟩ := bind_eq_ok h₂
  obtain rfl := Except.ok.inj h₂
  obtain ⟨clauses, hclauses, h₃⟩ := bind_eq_ok h₃
  obtain rfl := Except.ok.inj h₃
  obtain ⟨hsame, hvars, -, -⟩ := Translation.copyAllTransitions_same h
  have henums : t₁.dest.enums = f.enums := by
    rw [hdest]
    rfl
  have heq : f.clauses = clauses := List.forall₂_eq_eq_eq ▸
    (mapM_forall₂ hclauses).imp fun c c' hc => (Translation.copyClause_identity hc).symm
  refine ⟨cs, hcs, findEquivalences_merged hf hcs, hsame.length.trans hlen, fun i c hc => ?_,
    hsame.enums.trans henums, ?_, hsame.clauses.trans heq.symm⟩
  · obtain ⟨x, hx, hcx⟩ := hcopy i c hc
    obtain ⟨y, hy, hty, hk, hi⟩ := hsame.vars i x hx
    rw [hvars]
    exact ⟨y, hy, hcx.same_kind hty hk hi⟩
  · rw [hsame.props, hvars]
    exact mapM_forall₂ hprops

/-- Every variable is in exactly one class and mapped to its copy, and the copy has the
kind and the initial value of the class, in which one variable at most has a kind. -/
structure ClassesOf (f : L2File) (t : Translation) (cs : List EqClass) : Prop where
  one : ∀ v < f.vars.length, ∃! i : ℕ, ∃ c : EqClass, cs[i]? = some c ∧ v ∈ c.members
  mapped : ∀ (i : ℕ) (c : EqClass), cs[i]? = some c → ∀ v ∈ c.members, v < f.vars.length ∧
    t.vars.getDestination v = some i
  known : ∀ c ∈ cs, ∀ v ∈ c.members, ∀ w ∈ c.members, Known f v → Known f w → v = w
  carries : ∀ (i : ℕ) (c : EqClass), cs[i]? = some c → ∃ x, t.dest.vars[i]? = some x ∧
    Carries f {v | v ∈ c.members} x

structure Preserves (f : L2File) (t : Translation) : Prop where
  pulls : ∀ b, t.dest.Solution b → f.Solution (Translation.pull t.vars b)
  constant : ∀ a, f.Solution a → ∀ v < f.vars.length, ∀ w < f.vars.length,
    t.vars.getDestination v = t.vars.getDestination w → a v = a w
  induces : ∀ a, f.Solution a → ∃ b, t.dest.Solution b ∧
    ∀ v < f.vars.length, Translation.pull t.vars b v = a v
  forced : ∀ v < f.vars.length, ∀ w < f.vars.length,
    t.vars.getDestination v = t.vars.getDestination w → EqvGen (Equated f) v w
  classes : ∃ cs, findEquivalences f = .ok cs ∧ ClassesOf f t cs

/-- Where the background says of two variables that they differ, it also says that they
are equal. -/
def UnequalEquated (f : L2File) : Prop :=
  ∀ p, UnitComparison f p → p.positive = false → EqvGen (Equated f) p.var p.otherVar

theorem equated_of_compared (h : UnequalEquated f) (hvw : EqvGen (Compared f) v w) :
    EqvGen (Equated f) v w := by
  refine ((EqvGen.is_equivalence _).eqvGen_iff).mp (hvw.mono fun u u' hu => ?_)
  obtain ⟨p, hp, rfl, rfl⟩ := hu
  cases hs : p.positive with
  | true => exact .rel _ _ ⟨p, hp, hs, rfl, rfl⟩
  | false => exact h p hp hs

theorem Equated.eq {a : ℕ → ℕ} (ha : f.Solution a) (h : Equated f v w) : a v = a w := by
  obtain ⟨p, ⟨c, hc, hb, hprops⟩, hpos, rfl, rfl⟩ := h
  obtain ⟨q, hq, hh⟩ := ha.2 c hc hb
  obtain rfl := List.mem_singleton.mp (hprops ▸ hq)
  exact hh.mpr hpos

theorem type_eq (hf : f.WellFormed) (h : EqvGen (Compared f) v w) : f.type v = f.type w :=
  eqvGen_value f.type (fun _ _ ⟨_, hp, hv, hw⟩ => hv ▸ hw ▸ (hp.typed hf).2.2) h

theorem holds_congr {a b : ℕ → ℕ} {p : L2rProposition} (hp : f.Typed p)
    (hab : ∀ v < f.vars.length, a v = b v) : p.Holds a ↔ p.Holds b := by
  cases p with
  | varValue p => simp only [L2rProposition.Holds, hab p.var hp.1]
  | varVar p => simp only [L2rProposition.Holds, hab p.var hp.1, hab p.otherVar hp.2.1]

theorem clauseHolds_congr {a b : ℕ → ℕ} {k : L2rClause} (hf : f.WellFormed)
    (hab : ∀ v < f.vars.length, a v = b v) : f.ClauseHolds a k ↔ f.ClauseHolds b k := by
  unfold L2File.ClauseHolds
  refine exists_congr fun p => and_congr_right fun hp => ?_
  obtain ⟨i, -, hi⟩ := List.mem_filterMap.mp hp
  exact holds_congr (hf.props p (List.mem_of_getElem? hi)) hab

namespace Copied

variable {t : Translation} (h : Copied f t cs)
include h

theorem lt_of_mem {i : ℕ} (hc : cs[i]? = some c) (hv : v ∈ c.members) : v < f.vars.length :=
  List.mem_range.mp (h.merged.partitions.mem.mpr ⟨c, List.mem_of_getElem? hc, hv⟩)

theorem exists_class (hv : v < f.vars.length) :
    ∃ i c, cs[i]? = some c ∧ v ∈ c.members ∧ t.vars.getDestination v = some i := by
  obtain ⟨c, hc, hmem⟩ := h.merged.partitions.mem.mp (List.mem_range.mpr hv)
  obtain ⟨i, hi⟩ := List.mem_iff_getElem?.mp hc
  obtain ⟨x, -, hx⟩ := h.copy i c hi
  exact ⟨i, c, hi, hmem, hx.mapped v hmem⟩

variable (hf : f.WellFormed)
include hf

theorem same_iff (hcs : findEquivalences f = .ok cs) (hv : v < f.vars.length)
    (hw : w < f.vars.length) :
    t.vars.getDestination v = t.vars.getDestination w ↔ EqvGen (Compared f) v w := by
  obtain ⟨i, c, hi, hvc, hvi⟩ := h.exists_class hv
  obtain ⟨j, d, hj, hwd, hwj⟩ := h.exists_class hw
  rw [← together_iff hf hcs hv]
  constructor
  · intro he
    obtain rfl : i = j := Option.some.inj (hvi.symm.trans (he.trans hwj))
    obtain rfl := Option.some.inj (hi.symm.trans hj)
    exact ⟨c, List.mem_of_getElem? hi, hvc, hwd⟩
  · intro ⟨e, he, hve, hwe⟩
    obtain ⟨k, hk⟩ := List.mem_iff_getElem?.mp he
    obtain ⟨x, -, hx⟩ := h.copy k e hk
    rw [hx.mapped v hve, hx.mapped w hwe]

theorem nmembers_eq {i : ℕ} (hcs : findEquivalences f = .ok cs) (hc : cs[i]? = some c)
    (hv : v ∈ c.members) : t.dest.nmembers i = f.nmembers v := by
  obtain ⟨x, hx, hcopy⟩ := h.copy i c hc
  have hmem := List.mem_of_getElem? hc
  have hvw : EqvGen (Compared f) v c.representative :=
    (together_iff hf hcs (h.lt_of_mem hc hv)).mp
      ⟨c, hmem, hv, (h.merged.settled c hmem).mem⟩
  have hty : t.dest.type i = f.type v := by
    rw [type_eq hf hvw, hcopy.type]
    simp [L2File.type, hx]
  unfold L2File.nmembers
  rw [hty, h.enums]

theorem pulls (hcs : findEquivalences f = .ok cs) {b : ℕ → ℕ} (hb : t.dest.Solution b) :
    f.Solution (Translation.pull t.vars b) := by
  refine ⟨fun v hv => ?_, fun k hk hback => ?_⟩
  · obtain ⟨i, c, hi, hvc, hvi⟩ := h.exists_class hv
    rw [Translation.pull_eq hvi, ← h.nmembers_eq hf hcs hi hvc]
    exact hb.1 i (h.length ▸ (List.getElem?_eq_some_iff.mp hi).1)
  · exact (Translation.clauseHolds_of_copies h.props).mp (hb.2 k (h.clauses ▸ hk) hback)

theorem induces (hcs : findEquivalences f = .ok cs) {a : ℕ → ℕ} (ha : f.Solution a)
    (hconst : ∀ v w, EqvGen (Compared f) v w → a v = a w) :
    ∃ b, t.dest.Solution b ∧ ∀ v < f.vars.length, Translation.pull t.vars b v = a v := by
  -- a class has the value of its representative
  let b (i : ℕ) : ℕ := ((cs[i]?).map fun c => a c.representative).getD 0
  have hb {i : ℕ} {c : EqClass} (hc : cs[i]? = some c) : b i = a c.representative := by
    simp [b, hc]
  have hrep {i : ℕ} {c : EqClass} (hc : cs[i]? = some c) : c.representative ∈ c.members :=
    (h.merged.settled c (List.mem_of_getElem? hc)).mem
  have hpull (v : ℕ) (hv : v < f.vars.length) : Translation.pull t.vars b v = a v := by
    obtain ⟨i, c, hi, hvc, hvi⟩ := h.exists_class hv
    rw [Translation.pull_eq hvi, hb hi]
    exact (hconst _ _ ((together_iff hf hcs hv).mp
      ⟨c, List.mem_of_getElem? hi, hvc, hrep hi⟩)).symm
  refine ⟨b, ⟨fun i hi => ?_, fun k hk hback => ?_⟩, hpull⟩
  · have hi : i < cs.length := h.length ▸ hi
    have hc : cs[i]? = some cs[i] := List.getElem?_eq_getElem hi
    rw [hb hc, h.nmembers_eq hf hcs hc (hrep hc)]
    exact ha.1 _ (h.lt_of_mem hc (hrep hc))
  · rw [Translation.clauseHolds_of_copies h.props, clauseHolds_congr hf hpull]
    exact ha.2 k (h.clauses ▸ hk) hback

omit hf in
theorem classesOf : ClassesOf f t cs := by
  refine ⟨fun v hv => ?_, fun i c hc v hv => ?_, fun c hc v hv w hw hkv hkw => ?_,
    fun i c hc => ?_⟩
  · obtain ⟨i, c, hi, hvc, hvi⟩ := h.exists_class hv
    refine ⟨i, ⟨c, hi, hvc⟩, fun j ⟨d, hj, hvd⟩ => ?_⟩
    obtain ⟨x, -, hx⟩ := h.copy j d hj
    exact Option.some.inj ((hx.mapped v hvd).symm.trans hvi)
  · obtain ⟨x, -, hx⟩ := h.copy i c hc
    exact ⟨h.lt_of_mem hc hv, hx.mapped v hv⟩
  · have hset := h.merged.settled c hc
    exact (hset.known v hv hkv).trans (hset.known w hw hkw).symm
  · obtain ⟨x, hx, hcopy⟩ := h.copy i c hc
    exact ⟨x, hx, hcopy.carries⟩

end Copied

/-- Merging preserves the model if and only if no unit clause tells variables apart that
the others do not make equal. -/
theorem translate_preserves_iff {t : Translation} (hf : f.WellFormed)
    (h : translate f = .ok t) : Preserves f t ↔ UnequalEquated f := by
  obtain ⟨cs, hcs, hcop⟩ := copied hf h
  constructor
  · intro hp p hcmp _
    have hty := hcmp.typed hf
    exact hp.forced p.var hty.1 p.otherVar hty.2.1
      ((hcop.same_iff hf hcs hty.1 hty.2.1).mpr (.rel _ _ ⟨p, hcmp, rfl, rfl⟩))
  · intro hne
    have hconst {a : ℕ → ℕ} (ha : f.Solution a) {v w : ℕ} (hvw : EqvGen (Compared f) v w) :
        a v = a w :=
      eqvGen_value a (fun _ _ he => Equated.eq ha he) (equated_of_compared hne hvw)
    refine ⟨fun b hb => hcop.pulls hf hcs hb, fun a ha v hv w hw he => ?_, fun a ha => ?_,
      fun v hv w hw he => ?_, cs, hcs, hcop.classesOf⟩
    · exact hconst ha ((hcop.same_iff hf hcs hv hw).mp he)
    · exact hcop.induces hf hcs ha fun v w hvw => hconst ha hvw
    · exact equated_of_compared hne ((hcop.same_iff hf hcs hv hw).mp he)

/-- A mode variable, and one that the background says is equal to it or differs from it. -/
def twins (positive : Bool) : L2File where
  enums := [2]
  vars := [⟨0, .mode, some 1, {}⟩, ⟨0, .unknown, none, {}⟩]
  props := [.varVar ⟨0, positive, 1⟩]
  clauses := [⟨[0], true⟩]

theorem translate_preserves_twins :
    ∃ t, translate (twins true) = .ok t ∧ Preserves (twins true) t := by
  refine ⟨_, rfl, (translate_preserves_iff (by decide) rfl).mpr fun p ⟨c, hc, _, hp⟩ hneg => ?_⟩
  obtain rfl := List.mem_singleton.mp hc
  obtain rfl : (⟨0, true, 1⟩ : L2rPropVarVar) = p := by simpa [twins, L2File.clauseProps] using hp
  cases hneg

/-- The two variables become one, though they differ in every solution. -/
theorem translate_merges_unequal : ¬ ∀ f t, f.WellFormed → translate f = .ok t → Preserves f t := by
  intro h
  have hp := h (twins false) _ (by decide) rfl
  have hsol : (twins false).Solution id := by
    refine ⟨fun v hv => ?_, fun c hc _ => ?_⟩
    · have hv : v < 2 := hv
      interval_cases v <;> decide
    · obtain rfl := List.mem_singleton.mp hc
      exact ⟨.varVar ⟨0, false, 1⟩, by decide, by decide⟩
  have heq : id 0 = id 1 := hp.constant id hsol 0 (by decide) 1 (by decide) rfl
  cases heq

end Livingstone.MergeEqVars
