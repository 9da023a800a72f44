import Livingstone.Tms.Operations

/-! Propagation: each turn takes a unit clause from a fringe, makes its last
literal true and links the two. -/

namespace Livingstone

open UnitProp (Literal)
open Function (update update_of_ne)

namespace Bookkeeping

variable {lv : Literal PropId → Option Bool} {ls : List (Literal PropId)} {m : Mark}
  {l : Literal PropId} (h : Bookkeeping lv ls m)
include h

/-- The literals of a clause in the fringe but the unassigned one are false. -/
theorem unit (hs : m.satisfyingProp = none) (h1 : m.numUnassigned = 1) (hl : l ∈ ls)
    (h₀ : lv l = none) : ∀ x ∈ ls, x ≠ l → lv x = some false := by
  intro x hx hne
  have hcount := h.count
  rw [h1, (List.perm_cons_erase hl).countP_eq, List.countP_cons_of_pos (by simp [h₀])] at hcount
  have hz : (ls.erase l).countP (fun x => lv x = none) = 0 := by omega
  have hx' : lv x ≠ none := by
    have := List.countP_eq_zero.mp hz x ((List.mem_erase_of_ne hne).mpr hx)
    simpa using this
  have ht := h.unsat hs x hx
  cases hv : lv x with
  | none => exact absurd hv hx'
  | some b =>
    cases b with
    | false => rfl
    | true => exact absurd hv ht

theorem all_false (hs : m.satisfyingProp = none) (h0 : m.numUnassigned = 0) :
    ∀ x ∈ ls, lv x = some false := by
  intro x hx
  have hcount := h.count
  rw [h0] at hcount
  have hx' : lv x ≠ none := by
    have := List.countP_eq_zero.mp (by exact_mod_cast hcount.symm) x hx
    simpa using this
  have ht := h.unsat hs x hx
  cases hv : lv x with
  | none => exact absurd hv hx'
  | some b =>
    cases b with
    | false => rfl
    | true => exact absurd hv ht

theorem two_unassigned (hn : ls.Nodup) (h0 : m.numUnassigned ≠ 0)
    (h1 : m.numUnassigned ≠ 1) :
    ∃ x ∈ ls, ∃ y ∈ ls, x ≠ y ∧ lv x = none ∧ lv y = none := by
  have hcount := h.count
  have hpos : 0 < ls.countP fun x => lv x = none := by omega
  obtain ⟨x, hx, hvx⟩ := List.countP_pos_iff.mp hpos
  rw [(List.perm_cons_erase hx).countP_eq,
    List.countP_cons_of_pos (p := fun x => decide (lv x = none)) hvx] at hcount
  have hpos : 0 < (ls.erase x).countP fun x => lv x = none := by omega
  obtain ⟨y, hy, hvy⟩ := List.countP_pos_iff.mp hpos
  obtain ⟨hne, hy⟩ := hn.mem_erase_iff.mp hy
  exact ⟨x, hx, y, hy, hne.symm, by simpa using hvx, by simpa using hvy⟩

end Bookkeeping

theorem ClauseShape.mem_literals {k : Clause} (h : ClauseShape k) {p : PropId} {b : Bool}
    (hl : (p, b) ∈ k.lits) : p ∈ k.literals.take k.numLits.toNat := by
  simp only [Clause.lits, Clause.positiveProps, Clause.negativeProps, List.mem_append,
    List.mem_map] at hl
  rcases hl with ⟨q, hq, he⟩ | ⟨q, hq, he⟩
  · obtain rfl : q = p := congrArg Prod.fst he
    have := h.numPos_le
    exact (List.take_subset_take_left _ (by omega)) hq
  · obtain rfl : q = p := congrArg Prod.fst he
    exact List.mem_of_mem_drop hq

theorem ClauseShape.mem_lits {k : Clause} (h : ClauseShape k) {q : PropId}
    (hq : q ∈ k.literals.take k.numLits.toNat) : ∃ b, (q, b) ∈ k.lits := by
  have := h.numPos_le
  rw [← List.take_append_drop k.numPosLits.toNat (k.literals.take k.numLits.toNat),
    List.take_take, min_eq_left (by omega), List.mem_append] at hq
  rcases hq with hq | hq
  · exact ⟨true, List.mem_append_left _ (List.mem_map.mpr ⟨q, hq, rfl⟩)⟩
  · exact ⟨false, List.mem_append_right _ (List.mem_map.mpr ⟨q, hq, rfl⟩)⟩

theorem ClauseShape.setSupports {k : Clause} (h : ClauseShape k) {p : PropId} {b : Bool}
    (hl : (p, b) ∈ k.lits) : ∃ i, k.setSupports (some p) = .ok { k with supports := i } ∧
      ({ k with supports := i } : Clause).getSupports = some p := by
  obtain ⟨i, hi⟩ := Option.isSome_iff_exists.mp (List.isSome_idxOf?.mpr (h.mem_literals hl))
  obtain ⟨hlt, hget, -⟩ := List.idxOf?_eq_some_iff.mp hi
  have hlen : i < k.literals.length := by
    rw [List.length_take] at hlt
    omega
  have := h.bound
  have hw : lengthT i = i := lengthT_of_le (by omega) (by omega)
  refine ⟨lengthT i, by simp only [Clause.setSupports, hi], ?_⟩
  rw [List.getElem_take] at hget
  rw [hw, Clause.getSupports, if_neg (by simp only [noProposition]; omega)]
  simp [hlen, hget]

namespace Ltms

variable {s s' : Ltms} {c : ClauseId} {p : PropId} {b : Bool}

theorem fringePop_spec (h : s.Containers) {v : Bool} (hne : s.fringeOf v ≠ []) :
    ∃ c s', s.fringePop v = some (c, s') ∧ c ∈ s.clauses ∧ (s.clause c).inFringe = true ∧
      s.Remarks s' c { (s.clause c).mark with inFringe := false } := by
  obtain ⟨c, hlast⟩ : ∃ c, (s.fringeOf v).getLast? = some c := ⟨_, List.getLast?_eq_some_getLast hne⟩
  obtain ⟨hc, hin, hv⟩ := (h.fringe_mem v c).mp (List.mem_of_getLast? hlast)
  have hpos := List.length_pos_iff.mpr hne
  have hidx : (s.clause c).fringeIndex = (s.fringeOf v).length - 1 :=
    h.fringe_index v _ c (List.getLast?_eq_getElem? ▸ hlast)
  obtain ⟨s', hs', hr⟩ := remarks_fringeRemove h hc hin
  have hpop : s.fringePop v =
      some (c, (s.setFringe v (s.fringeOf v).dropLast).takeFromFringe c) := by
    simp only [fringePop, hlast, Option.map_some]
  refine ⟨c, s', ?_, hc, hin, hr⟩
  rw [hv] at hs'
  simp only [fringeRemove, hidx, hpop] at hs'
  rw [if_pos (by omega)] at hs'
  rw [hpop, Except.ok.inj hs']

theorem getFringeClause_none (h : s.getFringeClause = none) : ∀ v, s.fringeOf v = [] := by
  unfold getFringeClause at h
  split_ifs at h with hf
  · exact absurd h (by simpa [fringePop, fringeOf] using hf)
  · rintro (_ | _)
    · simpa [fringeOf] using hf
    · simpa [fringePop] using h

theorem getFringeClause_some (h : s.Containers) {x : ClauseId × Ltms}
    (hx : s.getFringeClause = some x) : x.1 ∈ s.clauses ∧ (s.clause x.1).inFringe = true ∧
      s.Remarks x.2 x.1 { (s.clause x.1).mark with inFringe := false } := by
  have hpop (v : Bool) (hv : s.fringePop v = some x) : x.1 ∈ s.clauses ∧
      (s.clause x.1).inFringe = true ∧
      s.Remarks x.2 x.1 { (s.clause x.1).mark with inFringe := false } := by
    have hne : s.fringeOf v ≠ [] := by
      intro he
      simp [fringePop, he] at hv
    obtain ⟨c, s', hs', hc, hin, hr⟩ := fringePop_spec h hne
    obtain rfl := Option.some.inj (hv.symm.trans hs')
    exact ⟨hc, hin, hr⟩
  unfold getFringeClause at hx
  split_ifs at hx
  · exact hpop false hx
  · exact hpop true hx

theorem getUnassignedLiteral_spec {k : Clause} (h : ∃ l ∈ k.lits, s.litVal l = none) :
    ∃ l, s.getUnassignedLiteral k = .ok l ∧ l ∈ k.lits ∧ s.litVal l = none := by
  obtain ⟨l, hl, hv⟩ := h
  obtain ⟨x, hx⟩ := Option.isSome_iff_exists.mp
    (List.find?_isSome (p := fun l => decide (s.litVal l = none)) |>.mpr ⟨l, hl, by simp [hv]⟩)
  refine ⟨x, ?_, List.mem_of_find?_eq_some hx, by simpa using List.find?_some hx⟩
  simp only [getUnassignedLiteral, hx]

theorem Support.link {rank : PropId → ℕ} (h : s.Support ∅ s.litVal rank) (hu : s.undoList = [])
    (ha : s.Active c) (hl : (p, b) ∈ (s.clause c).lits) (hp : p ∈ s.props)
    (hv : s.value p = .unknown)
    (hrest : ∀ l ∈ (s.clause c).lits, l ≠ (p, b) → s.litVal l = some false)
    (ho : s.Outline s') (hundo : s'.undoList = s.undoList)
    (hval : ∀ q, s'.value q = if q = p then truth b else s.value q)
    (hsup : ∀ q, (s'.prop q).supportedBy = if q = p then some c else (s.prop q).supportedBy)
    (hgs : ∀ d, (s'.clause d).getSupports = if d = c then some p else (s.clause d).getSupports) :
    ∃ rank, s'.Support ∅ s'.litVal rank := by
  set bound := ((s.clause c).lits.map fun l => rank l.1).sum
  have hbound (l : Literal PropId) (hl : l ∈ (s.clause c).lits) : rank l.1 ≤ bound :=
    List.single_le_sum (by simp) _ (List.mem_map_of_mem hl)
  have hlv (l : Literal PropId) (hne : l.1 ≠ p) : s'.litVal l = s.litVal l := by
    simp only [litVal, hval, if_neg hne]
  have hpb : s'.litVal (p, b) = some true := by
    rw [litVal_eq_some, hval]
    simp
  have hknown {l : Literal PropId} {x : Bool} (hl : s.litVal l = some x) : l.1 ≠ p := by
    intro he
    have := litVal_eq_none (b := l.2).mpr hv
    rw [← he] at this
    simp [hl] at this
  -- a clause with an older link has no literal of `p`
  have holder {d : ClauseId} (hd : d ∈ s.clauses) {q : PropId}
      (hq : (s.clause d).getSupports = some q) : q ≠ p := by
    rintro rfl
    have := (h.back d hd q hq).2
    rw [(h.unknown q).mp hv] at this
    cases this
  refine ⟨update rank p (bound + 1), fun q => ?_, fun q hq => ?_, fun q d hd _ => ?_,
    fun d hd q hq => ?_, fun d hd q hq => ?_, hundo ▸ h.undo_nodup, fun q hq => ?_⟩
  · rw [hval, hsup]
    split_ifs
    · cases b <;> simp [truth]
    · exact h.unknown q
  · rw [ho.props]
    rw [hval] at hq
    split_ifs at hq with hqp
    · exact hqp ▸ hp
    · exact h.alloc q hq
  · rw [ho.active, hgs]
    rw [hsup] at hd
    split_ifs at hd with hqp
    · obtain rfl := Option.some.inj hd
      exact ⟨ha, by rw [if_pos rfl, hqp]⟩
    · obtain ⟨had, hg⟩ := h.forth q d hd (Set.notMem_empty q)
      have hdc : d ≠ c := by
        rintro rfl
        obtain ⟨x, hx, ht, hr⟩ := h.just d had.1 q hg
        by_cases he : (p, b) = (q, x)
        · exact hqp (congrArg Prod.fst he).symm
        · exact hknown (hr _ hl he).1 rfl
      exact ⟨had, by rw [if_neg hdc, hg]⟩
  · rw [ho.clauses] at hd
    rw [ho.active, hsup]
    rw [hgs] at hq
    split_ifs at hq with hdc
    · obtain rfl := Option.some.inj hq
      exact ⟨hdc ▸ ha, by rw [if_pos rfl, hdc]⟩
    · obtain ⟨had, hs⟩ := h.back d hd q hq
      exact ⟨had, by rw [if_neg (holder hd hq), hs]⟩
  · rw [ho.clauses] at hd
    rw [ho.lits]
    rw [hgs] at hq
    split_ifs at hq with hdc
    · obtain rfl := Option.some.inj hq
      subst hdc
      refine ⟨b, hl, hpb, fun l hl hne => ?_⟩
      have hf := hrest l hl hne
      have hlp := hknown hf
      rw [hlv l hlp, update_of_ne hlp, Function.update_self]
      exact ⟨hf, Nat.lt_succ_of_le (hbound l hl)⟩
    · obtain ⟨x, hx, ht, hr⟩ := h.just d hd q hq
      refine ⟨x, hx, by rw [hlv _ (holder hd hq), ht], fun l hl hne => ?_⟩
      obtain ⟨hf, hlt⟩ := hr l hl hne
      rw [hlv l (hknown hf), update_of_ne (hknown hf), update_of_ne (holder hd hq)]
      exact ⟨hf, hlt⟩
  · rw [hundo, hu] at hq
    cases hq

theorem Inv.fringe_unit (h : s.Inv) (hc : c ∈ s.clauses) (hin : (s.clause c).inFringe = true) :
    s.Active c ∧ (s.clause c).satisfyingProp = none ∧ (s.clause c).numUnassigned = 1 := by
  have ha : s.Active c := by
    refine ⟨hc, ?_⟩
    by_contra hdel
    have := (h.marks.deleted c hc (by simpa using hdel)).inFringe
    simp [Clause.mark, hin] at this
  exact ⟨ha, (h.marks.active c ha).fringe.mp hin⟩

/-- The number of propositions that a run of the loop may still assign. -/
def unknownCount (s : Ltms) : ℕ := s.props.countP fun p => s.value p = .unknown

theorem popAssign_spec (h : s.Inv) {x : ClauseId × Ltms} (hx : s.getFringeClause = some x) :
    ∃ p b s₂, x.2.getUnassignedLiteral (x.2.clause x.1) = .ok (p, b) ∧
      x.2.assign p b x.1 = .ok s₂ ∧
      s.Active x.1 ∧ (p, b) ∈ (s.clause x.1).lits ∧ s.value p = .unknown ∧
      (∀ l ∈ (s.clause x.1).lits, l ≠ (p, b) → s.litVal l = some false) ∧
      s.Frame x.2 ∧ (x.2.setValue p (truth b) (some x.1)).Frame s₂ ∧
      s₂.Containers ∧ s₂.Marked s₂.litVal := by
  obtain ⟨c, s₁⟩ := x
  obtain ⟨hc, hin, hr⟩ := getFringeClause_some h.containers hx
  simp only at hc hin hr ⊢
  obtain ⟨ha, hsat, h1⟩ := h.fringe_unit hc hin
  have hb := h.marks.active c ha
  have hpos : 0 < (s.clause c).lits.countP fun l => s.litVal l = none := by
    have := hb.count
    simp only [Clause.mark, h1] at this
    omega
  obtain ⟨l, hl, hlv⟩ := List.countP_pos_iff.mp hpos
  obtain ⟨⟨p, b⟩, hget, hpl, hpv⟩ := getUnassignedLiteral_spec (s := s₁) (k := s₁.clause c)
    ⟨l, by rw [hr.frame.lits]; exact hl, by rw [hr.frame.litVal]; simpa using hlv⟩
  rw [hr.frame.lits] at hpl
  rw [hr.frame.litVal] at hpv
  have hw₁ := hr.frame.wellFormed h.wf
  have hval : s.value p = .unknown := litVal_eq_none.mp hpv
  obtain ⟨s₂, hs₂, hf, hcon, hm⟩ := assign_spec (b := b) (p := p) (some c) hw₁ hr.containers
    ⟨fun d hd => by
      rw [hr.frame.lits, hr.frame.litVal]
      have had := (hr.frame.active d).mp hd
      by_cases hdc : d = c
      · subst hdc
        rw [hr.mark]
        have : (s.clause d).mark = { (s.clause d).mark with inFringe := true } := by
          simp only [Clause.mark, hin]
        simpa using this ▸ hb
      · rw [hr.others d hdc]
        have : ¬ c = d := fun he => hdc he.symm
        simpa [this] using h.marks.active d had,
     fun d hd hdel => by
      rw [hr.frame.clauses] at hd
      rw [hr.frame.deleted] at hdel
      have hdc : d ≠ c := by
        rintro rfl
        simp [ha.2] at hdel
      rw [hr.others d hdc, hr.frame.lits]
      exact h.marks.deleted d hd hdel⟩
    (fun d hd => by
      obtain rfl := Option.some.inj hd
      exact hw₁.mem_occurrences.mpr ⟨by rw [hr.frame.clauses]; exact hc, by
        rw [hr.frame.lits]; exact hpl⟩)
    (by rw [hr.frame.value, hval]) c
  exact ⟨p, b, s₂, hget, hs₂, ha, hpl, hval, hb.unit hsat h1 hpl hpv, hr.frame, hf, hcon, hm⟩

theorem propagateTurn_step (h : s.Inv) (hu : s.unsatisfied = []) {x : ClauseId × Ltms}
    (hx : s.getFringeClause = some x) :
    ∃ s', s.propagateTurn = .ok (.inl s') ∧ s'.Inv ∧ s.Outline s' ∧
      s'.unknownCount < s.unknownCount := by
  obtain ⟨p, b, s₂, hget, hassign, ha, hl, hv, hrest, hf₁, hf₂, hcon, hm⟩ := popAssign_spec h hx
  obtain ⟨c, s₁⟩ := x
  simp only at hget hassign ha hl hrest hf₁ hf₂
  have ho : s.Outline s₂ := hf₁.toOutline.trans ((outline_setValue s₁ p _ _).trans hf₂.toOutline)
  obtain ⟨i, hset, hgs⟩ := (ho.clauseShape (h.wf.shape c ha.1)).setSupports
    (show (p, b) ∈ (s₂.clause c).lits by rw [ho.lits]; exact hl)
  set k := { s₂.clause c with supports := i }
  set s₃ := s₂.setClause c k
  have hsk : s₂.Skeleton s₃ := skeleton_setClause s₂ c k rfl
  have ho₃ : s.Outline s₃ := ho.trans hsk.toOutline
  have hval (q : PropId) : s₃.value q = if q = p then truth b else s.value q := by
    rw [hsk.value, hf₂.value, value_setValue, hf₁.value]
  have hundo : s₃.undoList = s.undoList := hf₂.undoList.trans hf₁.undoList
  obtain ⟨rank, hs⟩ := h.support
  have hpp : p ∈ s.props := h.wf.lits_props c ha.1 _ hl
  refine ⟨s₃, ?_, ⟨ho₃.wellFormed h.wf, containers_setClause hcon rfl rfl rfl rfl, ?_, ?_,
    hundo.trans h.undo, ho₃.stamps h.stamps⟩, ho₃, ?_⟩
  · unfold propagateTurn
    rw [if_neg (by simp [hu])]
    simp only [hx, hget, hassign, bind, Except.bind, Ltms.setSupports, hset]
    rfl
  · rw [hsk.litVal]
    refine hsk.marked ⟨fun d hd => ?_, fun d hd hdel => ?_⟩
    · by_cases hdc : d = c
      · subst hdc
        rw [setClause_same]
        exact hm.active d ((hsk.active d).mp hd)
      · rw [setClause_ne _ _ hdc]
        exact hm.active d ((hsk.active d).mp hd)
    · by_cases hdc : d = c
      · subst hdc
        rw [setClause_same] at hdel ⊢
        exact hm.deleted d hd hdel
      · rw [setClause_ne _ _ hdc] at hdel ⊢
        exact hm.deleted d hd hdel
  · refine hs.link h.undo ha hl hpp hv hrest ho₃ hundo hval (fun q => ?_) (fun d => ?_)
    · rw [hsk.prop, hf₂.prop, supportedBy_setValue, hf₁.prop]
    · by_cases hdc : d = c
      · rw [hdc, setClause_same, if_pos rfl, hgs]
      · rw [setClause_ne _ _ hdc, if_neg hdc, hf₂.getSupports]
        exact hf₁.getSupports d
  · have := countP_flip (P := fun q => s.value q = .unknown) (Q := fun q => s₃.value q = .unknown)
      h.wf.props_nodup hpp (by simp [hv]) (by cases b <;> simp [hval, truth])
      (fun q hq => by simp [hval, hq])
    unfold unknownCount
    rw [ho₃.props, this]
    exact Nat.lt_succ_self _

theorem propagate_spec (h : s.Inv) :
    ∃ b s', s.propagate = .ok (b, s') ∧ s'.Inv ∧ s.Outline s' ∧
      (b = true ↔ s'.unsatisfied = []) ∧ (b = true → ∀ v, s'.fringeOf v = []) := by
  obtain ⟨⟨b, s'⟩, hs', hinv, ho, hb, hfr⟩ := Loop.whileM_total L2Error.outOfFuel
    propagateTurn (fun s' => s'.Inv ∧ s.Outline s') unknownCount
    (fun r => r.2.Inv ∧ s.Outline r.2 ∧ (r.1 = true ↔ r.2.unsatisfied = []) ∧
      (r.1 = true → ∀ v, r.2.fringeOf v = []))
    (fun s' ⟨hinv, ho⟩ => by
      by_cases hu : s'.unsatisfied = []
      · cases hx : s'.getFringeClause with
        | none =>
          refine Or.inr ⟨(true, s'), ?_, hinv, ho, by simp [hu], fun _ => getFringeClause_none hx⟩
          simp only [propagateTurn, hu, hx, ne_eq, not_true, if_false]
        | some x =>
          obtain ⟨s'', hs'', hinv', ho', hμ⟩ := propagateTurn_step hinv hu hx
          exact Or.inl ⟨s'', hs'', ⟨hinv', ho.trans ho'⟩, hμ⟩
      · refine Or.inr ⟨(false, s'), ?_, hinv, ho, by simp [hu], by simp⟩
        simp only [propagateTurn, ne_eq, hu, not_false_eq_true, if_true])
    (s.props.length + 1) s ⟨h, Outline.refl s⟩
    (Nat.lt_succ_of_le List.countP_le_length)
  exact ⟨b, s', hs', hinv, ho, hb, hfr⟩

end Ltms

end Livingstone
