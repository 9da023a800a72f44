import Livingstone.Transition.Present

/-! The invariant of the chains in time: a present variable comes before its copies, the newest of
them first, and the transitions of a mode go with the copies of the mode, down to the transition
from the horizon. -/

namespace Livingstone
namespace Transition

open Function (update update_self update_of_ne)

variable {σ : Type} {S : Solver σ} {s s₁ s' : TSystem σ} {K D E : Set Ref} {T horizon : UInt32}
  {m r v : Ref} {l t : List Ref}

/-- The copies of `v`. Those of the time step `T` are made for the variables of `D`. -/
structure IsPast (D : Set Ref) (T : UInt32) (s : TSystem σ) (v : Ref) (l : List Ref) : Prop where
  whole : Chain.Whole s.links (v :: l)
  listed : ∀ x ∈ l, x ∈ s.variableList
  times : ∀ x ∈ l, s.timeOf x < now ∧ (s.timeOf x < T ∨ v ∈ D ∧ s.timeOf x = T)
  descending : l.Pairwise fun a b => s.timeOf b < s.timeOf a

/-- The transitions of `m` before the one from the horizon. -/
structure IsTransitions (s : TSystem σ) (m : Ref) (t : List Ref) : Prop where
  whole : Chain.Whole s.links (t ++ [(s.modeCell m).horizonTransition])
  first : (t ++ [(s.modeCell m).horizonTransition]).head? = some (s.modeCell m).zenithTransition
  listed : ∀ x ∈ t, IsTransition s x

/-- The transitions of the modes of `E` are one behind. -/
structure Ordered (D E : Set Ref) (T : UInt32) (s : TSystem σ) : Prop where
  consistent : Chain.Consistent s.links {x | x ∈ s.variableList}
  nows : s.variableList.Pairwise fun a b => s.timeOf a = now → s.timeOf b = now
  nodup : s.present.Nodup
  plain : Plain s
  chain : ∀ v ∈ s.present, ∃ l, IsPast D T s v l ∧ (s.kindOf v = .transitioned →
    ∃ t, IsTransitions s v t ∧ (v ∉ E → t.map s.timeOf = l.map s.timeOf) ∧
      (v ∈ E → T :: t.map s.timeOf = l.map s.timeOf))
  horizons : ∀ m ∈ s.present, ∀ m' ∈ s.present, s.kindOf m = .transitioned →
    s.kindOf m' = .transitioned →
    (s.modeCell m).horizonTransition = (s.modeCell m').horizonTransition → m = m'

theorem IsPast.congr (h : IsPast D T s v l) (hwhole : Chain.Whole s'.links (v :: l))
    (hlist : ∀ x ∈ l, x ∈ s'.variableList) (htime : ∀ x ∈ l, s'.timeOf x = s.timeOf x) :
    IsPast D T s' v l := by
  refine ⟨hwhole, hlist, fun x hx => ?_, h.descending.imp_of_mem fun {a b} ha hb hab => ?_⟩
  · rw [htime x hx]
    exact h.times x hx
  · rw [htime a ha, htime b hb]
    exact hab

theorem IsPast.mono {D' : Set Ref} (h : IsPast D T s v l) (hD : v ∈ D → v ∈ D') :
    IsPast D' T s v l :=
  ⟨h.whole, h.listed, fun x hx => ⟨(h.times x hx).1, (h.times x hx).2.imp_right (And.imp_left hD)⟩,
    h.descending⟩

theorem IsPast.nodup (h : IsPast D T s v l) (hK : Tidy K s) (hv : v ∈ s.present) :
    (v :: l).Nodup := by
  refine List.nodup_cons.mpr ⟨fun hmem => ?_, ?_⟩
  · have htime := (h.times v hmem).1
    rw [(hK.present v hv).2] at htime
    exact absurd htime (UInt32.lt_irrefl now)
  · refine h.descending.imp fun {a b} hab => ?_
    rintro rfl
    exact UInt32.lt_irrefl _ hab

theorem IsPast.mem_list (h : IsPast D T s v l) (hK : Tidy K s) (hv : v ∈ s.present) :
    ∀ x ∈ v :: l, x ∈ s.variableList :=
  List.forall_mem_cons.mpr ⟨(hK.present v hv).1, h.listed⟩

theorem IsTransitions.congr (h : IsTransitions s m t)
    (hwhole : Chain.Whole s'.links (t ++ [(s.modeCell m).horizonTransition]))
    (hmode : (s'.modeCell m).zenithTransition = (s.modeCell m).zenithTransition ∧
      (s'.modeCell m).horizonTransition = (s.modeCell m).horizonTransition)
    (hlisted : ∀ x ∈ t, IsTransition s' x) : IsTransitions s' m t := by
  refine ⟨?_, ?_, hlisted⟩
  · rw [hmode.2]
    exact hwhole
  · rw [hmode.1, hmode.2]
    exact h.first

theorem IsTransitions.mem_list (h : IsTransitions s m t) (hK : Tidy K s) (hm : m ∈ s.present)
    (hmode : s.kindOf m = .transitioned) :
    ∀ x ∈ t ++ [(s.modeCell m).horizonTransition], IsTransition s x := by
  intro x hx
  rcases List.mem_append.mp hx with hx | hx
  · exact h.listed x hx
  · rw [List.mem_singleton.mp hx]
    exact (hK.modes m hm hmode).2.1

theorem IsTransitions.descending (hl : IsPast D T s m l)
    (hsync : t.map s.timeOf = l.map s.timeOf) :
    t.Pairwise fun a b => s.timeOf b < s.timeOf a := by
  have hmapped : (t.map s.timeOf).Pairwise fun a b => b < a := by
    rw [hsync]
    exact List.pairwise_map.mpr hl.descending
  exact List.pairwise_map.mp hmapped

theorem IsTransitions.nodup (hl : IsPast D T s m l) (hK : Tidy K s) (hm : m ∈ s.present)
    (hmode : s.kindOf m = .transitioned) (hsync : t.map s.timeOf = l.map s.timeOf) :
    (t ++ [(s.modeCell m).horizonTransition]).Nodup := by
  refine List.nodup_append'.mpr ⟨?_, List.nodup_singleton _, ?_⟩
  · refine (IsTransitions.descending hl hsync).imp fun {a b} hab => ?_
    rintro rfl
    exact UInt32.lt_irrefl _ hab
  · intro x hx hxh
    rw [List.mem_singleton] at hxh
    subst hxh
    have hmem : s.timeOf (s.modeCell m).horizonTransition ∈ l.map s.timeOf :=
      hsync ▸ List.mem_map_of_mem hx
    obtain ⟨y, hy, hyt⟩ := List.mem_map.mp hmem
    have hlt := (hl.times y hy).1
    rw [hyt, (hK.modes m hm hmode).2.2] at hlt
    exact UInt32.lt_irrefl now hlt

theorem Ordered.transport (h : Ordered D E T s) (hK : Tidy K s)
    (hpresent : s'.presentVariables = s.presentVariables)
    (hlist : ∀ x ∈ s.variableList, x ∈ s'.variableList)
    (hcell : ∀ x ∈ s.variableList, s'.kindOf x = s.kindOf x ∧ s'.timeOf x = s.timeOf x)
    (hmodes : ∀ m ∈ s.present, (s'.modeCell m).zenithTransition = (s.modeCell m).zenithTransition ∧
      (s'.modeCell m).horizonTransition = (s.modeCell m).horizonTransition)
    (hconsistent : Chain.Consistent s'.links {x | x ∈ s'.variableList})
    (hnows : s'.variableList.Pairwise fun a b => s'.timeOf a = now → s'.timeOf b = now)
    (hwhole : ∀ c : List Ref, (∀ x ∈ c, x ∈ s.variableList) → Chain.Whole s.links c →
      Chain.Whole s'.links c) : Ordered D E T s' := by
  have heq : s'.present = s.present := congrArg (List.filterMap id) hpresent
  have hkind {x : Ref} (hx : x ∈ s.present) := (hcell x (hK.present x hx).1).1
  have htransition {x : Ref} (hx : IsTransition s x) : IsTransition s' x :=
    ⟨hlist x hx.1, (hcell x hx.1).1.trans hx.2⟩
  refine ⟨hconsistent, hnows, heq ▸ h.nodup, h.plain.congr hpresent fun v hv => hkind hv, ?_, ?_⟩
  · rw [heq]
    intro v hv
    obtain ⟨l, hl, ht⟩ := h.chain v hv
    refine ⟨l, hl.congr (hwhole _ (hl.mem_list hK hv) hl.whole) (fun x hx => hlist x (hl.listed x hx))
      fun x hx => (hcell x (hl.listed x hx)).2, fun hmode => ?_⟩
    rw [hkind hv] at hmode
    obtain ⟨t, ht, hsync, hbehind⟩ := ht hmode
    have hall := ht.mem_list hK hv hmode
    have htimes : t.map s'.timeOf = t.map s.timeOf :=
      List.map_congr_left fun x hx => (hcell x (ht.listed x hx).1).2
    have hltimes : l.map s'.timeOf = l.map s.timeOf :=
      List.map_congr_left fun x hx => (hcell x (hl.listed x hx)).2
    refine ⟨t, ht.congr (hwhole _ (fun x hx => (hall x hx).1) ht.whole) (hmodes v hv)
      fun x hx => htransition (ht.listed x hx), ?_, ?_⟩
    · rw [htimes, hltimes]
      exact hsync
    · rw [htimes, hltimes]
      exact hbehind
  · rw [heq]
    intro m hm m' hm' hmode hmode' hhorizon
    rw [(hmodes m hm).2, (hmodes m' hm').2] at hhorizon
    exact h.horizons m hm m' hm' (hkind hm ▸ hmode) (hkind hm' ▸ hmode') hhorizon

theorem IsPast.alike (h : IsPast D T s v l) (ha : Alike s s') : IsPast D T s' v l :=
  h.congr (ha.links.symm ▸ h.whole) (fun x hx => ha.list.symm ▸ h.listed x hx)
    fun x _ => (ha.cell x).2

theorem Alike.isTransition (ha : Alike s s') (h : IsTransition s r) : IsTransition s' r :=
  ⟨ha.list.symm ▸ h.1, (ha.cell r).1.trans h.2⟩

theorem IsTransitions.alike (h : IsTransitions s m t) (ha : Alike s s') : IsTransitions s' m t :=
  h.congr (ha.links.symm ▸ h.whole) (ha.modes m) fun x hx => ha.isTransition (h.listed x hx)

theorem Ordered.alike (h : Ordered D E T s) (ha : Alike s s') : Ordered D E T s' := by
  have htime : s'.timeOf = s.timeOf := funext fun r => (ha.cell r).2
  have hkind : s'.kindOf = s.kindOf := funext fun r => (ha.cell r).1
  have hpresent := ha.present_eq
  refine ⟨?_, ?_, hpresent ▸ h.nodup, ?_, ?_, ?_⟩
  · rw [ha.links, ha.list]
    exact h.consistent
  · rw [ha.list, htime]
    exact h.nows
  · exact h.plain.congr ha.present fun v _ => (ha.cell v).1
  · rw [hpresent, hkind, htime]
    intro v hv
    obtain ⟨l, hl, hmodes⟩ := h.chain v hv
    refine ⟨l, hl.alike ha, fun hmode => ?_⟩
    obtain ⟨t, ht, hsync⟩ := hmodes hmode
    exact ⟨t, ht.alike ha, hsync⟩
  · rw [hpresent, hkind]
    intro m hm m' hm' hmode hmode' hhorizon
    rw [(ha.modes m).2, (ha.modes m').2] at hhorizon
    exact h.horizons m hm m' hm' hmode hmode' hhorizon

theorem Ordered.created {kind : Kind} {timeStep : UInt32} (h : Ordered D E T s) (hK : Tidy K s)
    (hc : Created kind timeStep r s s₁)
    (hnows : s₁.variableList.Pairwise fun a b => s₁.timeOf a = now → s₁.timeOf b = now) :
    Ordered D E T s₁ := by
  have hr : r ∉ s.variableList := fun hmem => hc.not_mem (hK.lt hmem) rfl
  have hset : {x | x ∈ s₁.variableList} = insert r {x | x ∈ s.variableList} := by
    ext x
    exact hc.list x
  obtain ⟨hconsistent, hfresh⟩ := h.consistent.clear hr
  refine h.transport hK hc.present (fun x hx => (hc.list x).mpr (Or.inr hx)) (fun x hx => ?_)
    (fun m _ => by rw [hc.modes]; exact ⟨rfl, rfl⟩) ?_ hnows fun c hx hw => ?_
  · obtain ⟨hkind, htime, -⟩ := hc.grows.cell x (hK.lt hx)
    exact ⟨hkind, htime⟩
  · rw [hset, hc.links]
    exact hconsistent.add hfresh
  · rw [hc.links]
    exact hw.clear fun hmem => hr (hx r hmem)

theorem IsTransition.not_mem_present (h : Plain s) (hr : IsTransition s r) : r ∉ s.present := by
  intro hmem
  have hkind := h r hmem
  rw [hr.2] at hkind
  cases hkind

theorem IsPast.next (h : IsPast D T s v l) : s.links.next v = none := h.whole.1

theorem Ordered.not_mem_past (h : Ordered D E T s) (hK : Tidy K s) {w : Ref} (hv : v ∈ s.present)
    (hw : w ∈ s.present) (hwv : w ≠ v) (hl : IsPast D T s w l) : v ∉ w :: l := by
  intro hmem
  obtain ⟨l', hl', -⟩ := h.chain v hv
  obtain ⟨c, hc⟩ := hl.whole.eq_head h.consistent (hl.mem_list hK hw) hmem hl'.next
  exact hwv (List.cons.inj hc).1

/-- `r` has joined the variables of `s`, and the others are as before. -/
structure Joined (kind : Kind) (timeStep : UInt32) (r : Ref) (s s' : TSystem σ) : Prop where
  new : r ∉ s.variableList
  list : ∀ x, x ∈ s'.variableList ↔ x = r ∨ x ∈ s.variableList
  cell : ∀ x ∈ s.variableList, s'.kindOf x = s.kindOf x ∧ s'.timeOf x = s.timeOf x
  kind : s'.kindOf r = kind
  time : s'.timeOf r = timeStep
  present : s'.presentVariables = s.presentVariables
  horizon : ∀ m, (s'.modeCell m).horizonTransition = (s.modeCell m).horizonTransition

theorem Created.joined {kind : Kind} {timeStep : UInt32} (hc : Created kind timeStep r s s₁)
    (hK : Tidy K s) : Joined kind timeStep r s s₁ where
  new hmem := hc.not_mem (hK.lt hmem) rfl
  list := hc.list
  cell x hx := by
    obtain ⟨hkind, htime, -⟩ := hc.grows.cell x (hK.lt hx)
    exact ⟨hkind, htime⟩
  kind := hc.kind
  time := hc.time
  present := hc.present
  horizon m := by rw [hc.modes]

namespace Joined

variable {kind : Kind} {timeStep : UInt32} (h : Joined kind timeStep r s s')
include h

theorem relink {links : Chain.Links Ref} {modeCell : Ref → ModeCell}
    (hmodes : ∀ m, (modeCell m).horizonTransition = (s'.modeCell m).horizonTransition) :
    Joined kind timeStep r s { s' with links := links, modeCell := modeCell } :=
  ⟨h.new, h.list, h.cell, h.kind, h.time, h.present, fun m => (hmodes m).trans (h.horizon m)⟩

theorem present_eq : s'.present = s.present := congrArg (List.filterMap id) h.present

theorem kindOf (hK : Tidy K s) {w : Ref} (hw : w ∈ s.present) : s'.kindOf w = s.kindOf w :=
  (h.cell w (hK.present w hw).1).1

theorem setOf_list : {x | x ∈ s'.variableList} = insert r {x | x ∈ s.variableList} := by
  ext x
  exact h.list x

theorem times {t : List Ref} (ht : ∀ x ∈ t, x ∈ s.variableList) :
    t.map s'.timeOf = t.map s.timeOf :=
  List.map_congr_left fun x hx => (h.cell x (ht x hx)).2

theorem isTransition {x : Ref} (hx : IsTransition s x) : IsTransition s' x :=
  ⟨(h.list x).mpr (Or.inr hx.1), (h.cell x hx.1).1.trans hx.2⟩

theorem isPast (hl : IsPast D T s v l) (hwhole : Chain.Whole s'.links (v :: l)) :
    IsPast D T s' v l :=
  hl.congr hwhole (fun x hx => (h.list x).mpr (Or.inr (hl.listed x hx)))
    fun x hx => (h.cell x (hl.listed x hx)).2

theorem ordered {D' E' : Set Ref} (ho : Ordered D E T s) (hK : Tidy K s)
    (hconsistent : Chain.Consistent s'.links (insert r {x | x ∈ s.variableList}))
    (hnows : s'.variableList.Pairwise fun a b => s'.timeOf a = now → s'.timeOf b = now)
    (hchain : ∀ v ∈ s.present, ∃ l, IsPast D' T s' v l ∧ (s.kindOf v = .transitioned →
      ∃ t, IsTransitions s' v t ∧ (v ∉ E' → t.map s'.timeOf = l.map s'.timeOf) ∧
        (v ∈ E' → T :: t.map s'.timeOf = l.map s'.timeOf))) : Ordered D' E' T s' := by
  refine ⟨?_, hnows, h.present_eq ▸ ho.nodup, ?_, fun v hv => ?_, fun m hm m' hm' hmode hmode' heq => ?_⟩
  · rw [h.setOf_list]
    exact hconsistent
  · exact ho.plain.congr h.present fun w hw => h.kindOf hK hw
  · rw [h.present_eq] at hv
    obtain ⟨l, hl, hmodes⟩ := hchain v hv
    exact ⟨l, hl, fun hmode => hmodes (h.kindOf hK hv ▸ hmode)⟩
  · rw [h.present_eq] at hm hm'
    rw [h.kindOf hK hm] at hmode
    rw [h.kindOf hK hm'] at hmode'
    rw [h.horizon, h.horizon] at heq
    exact ho.horizons m hm m' hm' hmode hmode' heq

end Joined

theorem Ordered.whole_copy (h : Ordered D E T s) (hr : r ∉ s.variableList)
    (hv : v ∈ s.variableList) {c : List Ref} (hc : ∀ x ∈ c, x ∈ s.variableList)
    (hw : Chain.Whole s.links c) (hvc : v ∉ c) :
    Chain.Whole ((s.links.clear r).insertPrevious v r) c := by
  obtain ⟨hconsistent, hfresh⟩ := h.consistent.clear hr
  have hrc : r ∉ c := fun hmem => hr (hc r hmem)
  exact (hw.clear hrc).insertPrevious_other hconsistent hv hvc hfresh.previous hrc

theorem IsPast.copy {kind : Kind} (hl : IsPast D T s v l) (hj : Joined kind T r s s') (hvD : v ∉ D)
    (hT : T < now) (hwhole : Chain.Whole s'.links (v :: r :: l)) :
    IsPast (insert v D) T s' v (r :: l) := by
  have htime {x : Ref} (hx : x ∈ l) : s'.timeOf x = s.timeOf x := (hj.cell x (hl.listed x hx)).2
  have hlt {x : Ref} (hx : x ∈ l) : s.timeOf x < T :=
    (hl.times x hx).2.resolve_right fun hD => hvD hD.1
  refine ⟨hwhole, ?_, ?_, ?_⟩
  · exact List.forall_mem_cons.mpr ⟨(hj.list r).mpr (Or.inl rfl), fun x hx =>
      (hj.list x).mpr (Or.inr (hl.listed x hx))⟩
  · refine List.forall_mem_cons.mpr ⟨?_, fun x hx => ?_⟩
    · rw [hj.time]
      exact ⟨hT, Or.inr ⟨Set.mem_insert _ _, rfl⟩⟩
    · rw [htime hx]
      exact ⟨(hl.times x hx).1, Or.inl (hlt hx)⟩
  · refine List.pairwise_cons.mpr ⟨fun x hx => ?_, ?_⟩
    · rw [hj.time, htime hx]
      exact hlt hx
    · refine hl.descending.imp_of_mem fun {a b} ha hb hab => ?_
      rw [htime ha, htime hb]
      exact hab

theorem Ordered.copy {kind : Kind} (h : Ordered D E T s) (hK : Tidy K s)
    (hc : Created kind T r s s₁) (hv : v ∈ s.present) (hvD : v ∉ D) (hvE : v ∉ E) (hT : T < now)
    (hnows : s₁.variableList.Pairwise fun a b => s₁.timeOf a = now → s₁.timeOf b = now) :
    Ordered (insert v D) (insert v E) T { s₁ with links := s₁.links.insertPrevious v r } := by
  rw [hc.links]
  have hj : Joined kind T r s { s₁ with links := (s.links.clear r).insertPrevious v r } :=
    (hc.joined hK).relink fun _ => rfl
  have hvlist := (hK.present v hv).1
  obtain ⟨hconsistent, hfresh⟩ := h.consistent.clear hj.new
  generalize hs₂ : ({ s₁ with links := (s.links.clear r).insertPrevious v r } : TSystem σ) = s₂ at hj ⊢
  have hlinks : s₂.links = (s.links.clear r).insertPrevious v r := hs₂ ▸ rfl
  have hzenith (m : Ref) : (s₂.modeCell m).zenithTransition = (s.modeCell m).zenithTransition := by
    subst hs₂
    exact congrArg (fun f => (f m).zenithTransition) hc.modes
  refine hj.ordered h hK ?_ (hs₂ ▸ hnows) fun w hw => ?_
  · rw [hlinks]
    exact hconsistent.insertPrevious hvlist hfresh
  obtain ⟨l, hl, hmodes⟩ := h.chain w hw
  have hall := hl.mem_list hK hw
  have htransitions (hmode : s.kindOf w = .transitioned) {t : List Ref} (ht : IsTransitions s w t) :
      IsTransitions s₂ w t ∧ t.map s₂.timeOf = t.map s.timeOf := by
    have hallt := ht.mem_list hK hw hmode
    refine ⟨ht.congr ?_ ⟨hzenith w, hj.horizon w⟩ fun x hx => hj.isTransition (ht.listed x hx),
      hj.times fun x hx => (ht.listed x hx).1⟩
    rw [hlinks]
    exact h.whole_copy hj.new hvlist (fun x hx => (hallt x hx).1) ht.whole
      fun hmem => (hallt v hmem).not_mem_present h.plain hv
  by_cases hwv : w = v
  · subst hwv
    refine ⟨r :: l, hl.copy hj hvD hT ?_, fun hmode => ?_⟩
    · rw [hlinks]
      exact (hl.whole.clear fun hmem => hj.new (hall r hmem)).insertPrevious_head hconsistent hall
        (hl.nodup hK hw) hfresh
    · obtain ⟨t, ht, hsync, -⟩ := hmodes hmode
      obtain ⟨ht', htimes⟩ := htransitions hmode ht
      refine ⟨t, ht', fun hE => absurd (Set.mem_insert w E) hE, fun _ => ?_⟩
      rw [List.map_cons, hj.time, htimes, hj.times hl.listed, hsync hvE]
  · refine ⟨l, (hj.isPast hl ?_).mono (Set.mem_insert_of_mem v), fun hmode => ?_⟩
    · rw [hlinks]
      exact h.whole_copy hj.new hvlist hall hl.whole (h.not_mem_past hK hv hw hwv hl)
    · obtain ⟨t, ht, hsync, hbehind⟩ := hmodes hmode
      obtain ⟨ht', htimes⟩ := htransitions hmode ht
      refine ⟨t, ht', ?_⟩
      rw [htimes, hj.times hl.listed]
      exact ⟨fun hE => hsync fun hwE => hE (Set.mem_insert_of_mem v hwE),
        fun hE => hbehind (hE.resolve_left hwv)⟩

theorem IsTransitions.cons (h : IsTransitions s m t) : ∃ c,
    t ++ [(s.modeCell m).horizonTransition] = (s.modeCell m).zenithTransition :: c := by
  have hfirst := h.first
  generalize t ++ [(s.modeCell m).horizonTransition] = l at *
  cases l with
  | nil => cases hfirst
  | cons a l => exact ⟨l, congrArg (· :: l) (Option.some.inj hfirst)⟩

theorem Ordered.not_mem_transitions (h : Ordered D E T s) (hK : Tidy K s) {m' : Ref}
    {t' : List Ref} (hm : m ∈ s.present) (hm' : m' ∈ s.present) (hmode : s.kindOf m = .transitioned)
    (hmode' : s.kindOf m' = .transitioned) (hne : m' ≠ m) (ht : IsTransitions s m t)
    (ht' : IsTransitions s m' t') :
    (s.modeCell m).zenithTransition ∉ t' ++ [(s.modeCell m').horizonTransition] := by
  intro hmem
  obtain ⟨c, hc⟩ := ht.cons
  have hwhole := ht.whole
  rw [hc] at hwhole
  have hall := ht'.mem_list hK hm' hmode'
  obtain ⟨c', hc'⟩ := ht'.whole.eq_head h.consistent (fun x hx => (hall x hx).1) hmem hwhole.1
  have hwhole' := ht'.whole
  rw [hc'] at hwhole'
  obtain rfl := hwhole.2.unique hwhole'.2
  have hlast := congrArg List.getLast? (hc.trans hc'.symm)
  rw [List.getLast?_concat, List.getLast?_concat] at hlast
  exact hne (h.horizons m hm m' hm' hmode hmode' (Option.some.inj hlast)).symm

theorem Ordered.whole_transition (h : Ordered D E T s) (hr : r ∉ s.variableList) {z : Ref}
    (hz : z ∈ s.variableList) {c : List Ref} (hc : ∀ x ∈ c, x ∈ s.variableList)
    (hw : Chain.Whole s.links c) (hzc : z ∉ c) :
    Chain.Whole ((s.links.clear r).insertPrevious r z) c := by
  obtain ⟨hconsistent, hfresh⟩ := h.consistent.clear hr
  have hrc : r ∉ c := fun hmem => hr (hc r hmem)
  exact (hw.clear hrc).insertTop_other hconsistent hz hzc hfresh.previous hrc

theorem IsTransitions.push (h : Ordered D E T s) (hK : Tidy K s)
    (hj : Joined .transition T r s s') (hm : m ∈ s.present) (hmode : s.kindOf m = .transitioned)
    (hlinks : s'.links = (s.links.clear r).insertPrevious r (s.modeCell m).zenithTransition)
    (hzenith : (s'.modeCell m).zenithTransition = r) (ht : IsTransitions s m t) :
    IsTransitions s' m (r :: t) := by
  obtain ⟨hconsistent, hfresh⟩ := h.consistent.clear hj.new
  obtain ⟨c, hcons⟩ := ht.cons
  have hall := ht.mem_list hK hm hmode
  have hwhole := ht.whole
  rw [hcons] at hall hwhole
  refine ⟨?_, ?_, ?_⟩
  · rw [hj.horizon, hlinks, List.cons_append, hcons]
    exact (hwhole.clear fun hmem => hj.new (hall r hmem).1).insertTop (fun x hx => (hall x hx).1)
      hconsistent hfresh
  · rw [hzenith]
    rfl
  · exact List.forall_mem_cons.mpr ⟨⟨(hj.list r).mpr (Or.inl rfl), hj.kind⟩,
      fun x hx => hj.isTransition (ht.listed x hx)⟩

theorem Ordered.pushTransition (h : Ordered D {m} T s) (hK : Tidy K s)
    (hc : Created .transition T r s s₁) (hm : m ∈ s.present) (hmode : s.kindOf m = .transitioned)
    (hnows : s₁.variableList.Pairwise fun a b => s₁.timeOf a = now → s₁.timeOf b = now) :
    Ordered D ∅ T { s₁.setMode m { s₁.modeCell m with zenithTransition := r } with
      links := s₁.links.insertPrevious r (s.modeCell m).zenithTransition } := by
  obtain ⟨lm, -, hmodes⟩ := h.chain m hm
  obtain ⟨tm, htm, -⟩ := hmodes hmode
  obtain ⟨c, hcons⟩ := htm.cons
  have hwhole := htm.whole
  have hz := htm.mem_list hK hm hmode
  rw [hcons] at hwhole hz
  have hz := hz _ List.mem_cons_self
  rw [hc.links]
  have hj : Joined .transition T r s { s₁.setMode m { s₁.modeCell m with zenithTransition := r } with
      links := (s.links.clear r).insertPrevious r (s.modeCell m).zenithTransition } := by
    refine (hc.joined hK).relink fun q => ?_
    by_cases hqm : q = m
    · subst hqm
      simp [TSystem.setMode]
    · simp [TSystem.setMode, hqm]
  obtain ⟨hconsistent, hfresh⟩ := h.consistent.clear hj.new
  generalize hs₂ : ({ s₁.setMode m { s₁.modeCell m with zenithTransition := r } with
    links := (s.links.clear r).insertPrevious r (s.modeCell m).zenithTransition } : TSystem σ) = s₂
    at hj ⊢
  have hlinks : s₂.links = (s.links.clear r).insertPrevious r (s.modeCell m).zenithTransition :=
    hs₂ ▸ rfl
  have hzenith : (s₂.modeCell m).zenithTransition = r := by
    subst hs₂
    simp [TSystem.setMode]
  have hother {w : Ref} (hwm : w ≠ m) :
      (s₂.modeCell w).zenithTransition = (s.modeCell w).zenithTransition := by
    subst hs₂
    simp [TSystem.setMode, hwm, hc.modes]
  refine hj.ordered h hK ?_ (hs₂ ▸ hnows) fun w hw => ?_
  · have hzr : (s.modeCell m).zenithTransition ≠ r := fun heq => hj.new (heq ▸ hz.1)
    rw [hlinks]
    exact hconsistent.insertTop hfresh hz.1 ((update_of_ne hzr ..).trans hwhole.1)
  obtain ⟨l, hl, hmodes⟩ := h.chain w hw
  have hall := hl.mem_list hK hw
  refine ⟨l, hj.isPast hl ?_, fun hmodew => ?_⟩
  · rw [hlinks]
    refine h.whole_transition hj.new hz.1 hall hl.whole fun hmem => ?_
    obtain ⟨c', hc'⟩ := hl.whole.eq_head h.consistent hall hmem hwhole.1
    exact hz.not_mem_present h.plain ((List.cons.inj hc').1 ▸ hw)
  · obtain ⟨t, ht, hsync, hbehind⟩ := hmodes hmodew
    have hallt := ht.mem_list hK hw hmodew
    rw [hj.times hl.listed]
    by_cases hwm : w = m
    · subst hwm
      refine ⟨r :: t, ht.push h hK hj hw hmodew hlinks hzenith, fun _ => ?_, fun hE => hE.elim⟩
      rw [List.map_cons, hj.time, hj.times fun x hx => (ht.listed x hx).1]
      exact hbehind (Set.mem_singleton w)
    · refine ⟨t, ht.congr ?_ ⟨hother hwm, hj.horizon w⟩ fun x hx => hj.isTransition (ht.listed x hx),
        fun _ => ?_, fun hE => hE.elim⟩
      · rw [hlinks]
        exact h.whole_transition hj.new hz.1 (fun x hx => (hallt x hx).1) ht.whole
          (h.not_mem_transitions hK hm hw hmode hmodew hwm htm ht)
      · rw [hj.times fun x hx => (ht.listed x hx).1]
        exact hsync hwm

theorem list_newVariable (kind : Kind) (nvalues : ℕ) (timeStep id : UInt32)
    (h : s.insertBefore = none) :
    (s.newVariable S kind nvalues timeStep id).2.variableList = s.fresh :: s.variableList := by
  simp [TSystem.newVariable, TSystem.insertVariable, h]

theorem list_copyInPast (kind : Kind) (v : Ref) (h : s.insertBefore = none) :
    (s.copyInPast S kind v).2.variableList = s.fresh :: s.variableList := by
  unfold TSystem.copyInPast
  dsimp only
  split
  · exact list_newVariable kind _ s.timestep _ h
  · exact list_newVariable kind _ s.timestep _ h

theorem Ordered.nows_created {kind : Kind} {timeStep : UInt32} (h : Ordered D E T s) (hK : Tidy K s)
    (hc : Created kind timeStep r s s₁) (hlist : s₁.variableList = s.fresh :: s.variableList)
    (htime : timeStep ≠ now) :
    s₁.variableList.Pairwise fun a b => s₁.timeOf a = now → s₁.timeOf b = now := by
  have hold {x : Ref} (hx : x ∈ s.variableList) : s₁.timeOf x = s.timeOf x :=
    (hc.grows.cell x (hK.lt hx)).2.1
  rw [hlist]
  refine List.pairwise_cons.mpr ⟨fun x _ hnow => ?_, ?_⟩
  · rw [← hc.ref, hc.time] at hnow
    exact absurd hnow htime
  · refine h.nows.imp_of_mem fun {a b} ha hb hab => ?_
    rw [hold ha, hold hb]
    exact hab

theorem Ordered.copyInPast (kind : Kind) (h : Ordered D E s.timestep s) (hK : Tidy K s)
    (hv : v ∈ s.present) (hvD : v ∉ D) (hvE : v ∉ E) (hT : s.timestep < now)
    (hb : s.insertBefore = none) :
    Ordered (insert v D) (insert v E) s.timestep (s.copyInPast S kind v).2 := by
  obtain ⟨s₁, hc, heq⟩ := copyInPast_created S kind v s
  have hlist := list_copyInPast (S := S) kind v hb
  have hne : s.timestep ≠ now := fun hnow => UInt32.lt_irrefl now (hnow ▸ hT)
  rw [heq] at hlist ⊢
  exact h.copy hK hc hv hvD hvE hT (h.nows_created hK hc hlist hne)

theorem Ordered.settle (h : Ordered D E T s) (hE : ∀ m ∈ E, s.kindOf m ≠ .transitioned) :
    Ordered D ∅ T s := by
  refine ⟨h.consistent, h.nows, h.nodup, h.plain, fun v hv => ?_, h.horizons⟩
  obtain ⟨l, hl, hmodes⟩ := h.chain v hv
  refine ⟨l, hl, fun hmode => ?_⟩
  obtain ⟨t, ht, hsync, -⟩ := hmodes hmode
  exact ⟨t, ht, fun _ => hsync fun hvE => hE v hvE hmode, fun hvE => hvE.elim⟩

theorem alike_createModeTransition (costs : List UInt32) (timeStep id : UInt32) (s : TSystem σ) :
    Alike (s.newAssignable S .transition costs timeStep id).2
      (s.createModeTransition S costs timeStep id).2 := by
  have hs : Same (s.createTransition S costs timeStep id).2
      (s.createModeTransition S costs timeStep id).2 :=
    same_assign (s.createModeTransition S costs timeStep id).1 (some 0)
  exact ⟨hs.links, hs.list, hs.present, hs.fresh, fun r => ⟨(hs.cell r).1, (hs.cell r).2.1⟩,
    hs.modes⟩

theorem Alike.pushTransition (h : Alike s s') (m r z : Ref) {x y : ModeCell}
    (hx : x.zenithTransition = r ∧ y.zenithTransition = r)
    (hy : y.horizonTransition = x.horizonTransition) :
    Alike { s.setMode m x with links := s.links.insertPrevious r z }
      { s'.setMode m y with links := s'.links.insertPrevious r z } := by
  refine ⟨?_, h.list, h.present, h.fresh, h.cell, fun q => ?_⟩
  · dsimp only
    rw [h.links]
  · unfold TSystem.setMode
    by_cases hq : q = m
    · subst hq
      simp [hx, hy]
    · simpa [hq] using h.modes q

theorem zenith_createTransitionVariable (m : Ref) (s : TSystem σ) :
    (s.createTransitionVariable S m).timeOf
      ((s.createTransitionVariable S m).modeCell m).zenithTransition = s.timestep := by
  have htimestep := (adds_copyInPast (S := S) .dependent m s).timestep
  unfold TSystem.createTransitionVariable
  dsimp only
  generalize (s.copyInPast S .dependent m).2 = s₁ at *
  have hc := newAssignable_created (S := S) .transition (s₁.modeCell m).transitionCosts s₁.timestep
    (s₁.cell m).id s₁
  have halike := alike_createModeTransition (S := S) (s₁.modeCell m).transitionCosts s₁.timestep
    (s₁.cell m).id s₁
  have href := (links_createModeTransition (S := S) (s₁.modeCell m).transitionCosts s₁.timestep
    (s₁.cell m).id s₁).1
  have htime := ((halike.cell _).2.trans hc.time).trans htimestep
  rw [hc.ref, ← href] at htime
  simp only [TSystem.splice, TSystem.setMode, update_self]
  exact htime

theorem Ordered.createTransitionVariable (h : Ordered D ∅ s.timestep s) (hK : Tidy K s)
    (hm : m ∈ s.present) (hmode : s.kindOf m = .transitioned) (hmD : m ∉ D)
    (hT : s.timestep < now) (hb : s.insertBefore = none) :
    Ordered (insert m D) ∅ s.timestep (s.createTransitionVariable S m) := by
  obtain ⟨K₁, hK₁, -, hkinds⟩ := hK.copyInPast S .dependent rfl hm
  have hadds := adds_copyInPast (S := S) .dependent m s
  have hcopied := h.copyInPast (S := S) .dependent hK hm hmD (fun hE => hE.elim) hT hb
  rw [insert_empty_eq] at hcopied
  have hlt := hK.lt (hK.present m hm).1
  have hm₁ : m ∈ (s.copyInPast S .dependent m).2.present := hadds.present_eq ▸ hm
  have hmode₁ := (hkinds m hlt).trans hmode
  have hb₁ := hadds.insertBefore hb
  have hT₁ := hadds.timestep
  unfold TSystem.createTransitionVariable
  dsimp only
  generalize (s.copyInPast S .dependent m).1 = past
  generalize (s.copyInPast S .dependent m).2 = s₁ at *
  have hc := newAssignable_created (S := S) .transition (s₁.modeCell m).transitionCosts s.timestep
    (s₁.cell m).id s₁
  have hlist : (s₁.newAssignable S .transition (s₁.modeCell m).transitionCosts s.timestep
      (s₁.cell m).id).2.variableList = s₁.fresh :: s₁.variableList :=
    list_newVariable .transition _ s.timestep _ hb₁
  have hne : s.timestep ≠ now := fun hnow => UInt32.lt_irrefl now (hnow ▸ hT)
  have hpushed := hcopied.pushTransition hK₁ hc hm₁ hmode₁ (hcopied.nows_created hK₁ hc hlist hne)
  have halike := alike_createModeTransition (S := S) (s₁.modeCell m).transitionCosts s.timestep
    (s₁.cell m).id s₁
  have href := (links_createModeTransition (S := S) (s₁.modeCell m).transitionCosts s.timestep
    (s₁.cell m).id s₁).1
  rw [hc.ref] at hpushed
  rw [hT₁]
  generalize s₁.createModeTransition S (s₁.modeCell m).transitionCosts s.timestep
    (s₁.cell m).id = x at halike href ⊢
  have hmoved := halike.pushTransition m x.1 (s₁.modeCell m).zenithTransition
    (x := { (s₁.newAssignable S .transition (s₁.modeCell m).transitionCosts s.timestep
      (s₁.cell m).id).2.modeCell m with zenithTransition := x.1 })
    (y := { s₁.modeCell m with zenithTransition := x.1 }) ⟨rfl, rfl⟩
    (congrArg (fun f => (f m).horizonTransition) hc.modes).symm
  rw [← href] at hpushed
  have hspliced := (constrains_splice (S := S) m past (s := { x.2.setMode m {
    s₁.modeCell m with zenithTransition := x.1 } with
      links := x.2.links.insertPrevious x.1 (s₁.modeCell m).zenithTransition })).same.alike
  have hset (y : TSystem σ) : Same y (y.setMode m { y.modeCell m with
      transitionClauses := [], nowHasFailureFromHorizon := false }) := same_setMode rfl rfl
  exact ((hpushed.alike hmoved).alike hspliced).alike (hset _).alike

end Transition
end Livingstone
