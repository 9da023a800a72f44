import Livingstone.Tms.Destroy
import Livingstone.Tms.Propagation
import Livingstone.Tms.Transfer

/-! Batch destruction keeps the representation invariant. The sweeps leave the marked
objects in no table, the propositions that only they supported wait to be unassigned,
and the rest is as after an ordinary removal. -/

namespace Livingstone.Ltms

open UnitProp (Literal)
open SwapRemove

variable {s s' : Ltms} {c : ClauseId} {p : PropId} {v b : Bool}

/-- The clauses of a marked proposition are marked. -/
def Closed (s : Ltms) : Prop :=
  ∀ p b, (s.prop p).destroying = true → ∀ c ∈ s.occurrences p b, (s.clause c).destroying = true

theorem fringeOf_fringeRemove (h : s.fringeRemove v c = .ok s') :
    s'.fringeOf v = swapRemove (s.fringeOf v) (s.clause c).fringeIndex := by
  unfold fringeRemove at h
  simp only at h
  split_ifs at h with hlast hlt
  · split at h
    · rename_i hpop
      obtain rfl := Except.ok.inj h
      simp only [fringePop, Option.map_eq_some_iff, Prod.mk.injEq] at hpop
      obtain ⟨d, -, -, rfl⟩ := hpop
      rw [takeFromFringe, fringeOf_setClause, fringeOf_setFringe, if_pos rfl,
        swapRemove_last hlast]
    · cases h
  · split at h
    · obtain rfl := Except.ok.inj h
      rw [fringeOf_setClause, takeFromFringe, fringeOf_setClause, fringeOf_setFringe, if_pos rfl]
    · cases h

/-- No marked clause is left in the fringe and nothing else about the others changes. -/
theorem removeDestroying_spec (h : s.Containers) (v : Bool) :
    ∃ s', s.removeDestroying v = .ok s' ∧ s.Frame s' ∧ s'.Containers ∧
      (∀ c ∈ s'.fringeOf v, (s.clause c).destroying = false) ∧
      (∀ c, (s'.clause c).inFringe = true → (s.clause c).inFringe = true) ∧
      ∀ c, (s.clause c).destroying = false → (s'.clause c).mark = (s.clause c).mark := by
  obtain ⟨s', hs', hf, hc, hin, hmark, hdone⟩ := Loop.whileM_total L2Error.outOfFuel
    (removeDestroyingTurn v)
    (fun x => s.Frame x.2 ∧ x.2.Containers ∧
      (∀ c, (x.2.clause c).inFringe = true → (s.clause c).inFringe = true) ∧
      (∀ c, (s.clause c).destroying = false → (x.2.clause c).mark = (s.clause c).mark) ∧
      ∀ j < x.1, ∀ c, (x.2.fringeOf v)[j]? = some c → (s.clause c).destroying = false)
    (fun x => (x.2.fringeOf v).length - x.1)
    (fun s' => s.Frame s' ∧ s'.Containers ∧
      (∀ c, (s'.clause c).inFringe = true → (s.clause c).inFringe = true) ∧
      (∀ c, (s.clause c).destroying = false → (s'.clause c).mark = (s.clause c).mark) ∧
      ∀ c ∈ s'.fringeOf v, (s.clause c).destroying = false)
    (fun ⟨i, s'⟩ ⟨hf, hc, hin, hmark, hbefore⟩ => by
      simp only at hf hc hin hmark hbefore
      have hdes (d : ClauseId) : (s'.clause d).destroying = (s.clause d).destroying :=
        hf.field Clause.destroying (fun _ => rfl) d
      cases hget : (s'.fringeOf v)[i]? with
      | none =>
        refine Or.inr ⟨s', by simp only [removeDestroyingTurn, hget], hf, hc, hin, hmark, ?_⟩
        intro c hmem
        obtain ⟨j, hj, hjc⟩ := List.mem_iff_getElem.mp hmem
        have hi := List.getElem?_eq_none_iff.mp hget
        exact hbefore j (by omega) c (by rw [List.getElem?_eq_getElem hj, hjc])
      | some c =>
        obtain ⟨hlt, -⟩ := List.getElem?_eq_some_iff.mp hget
        left
        cases hd : (s'.clause c).destroying with
        | false =>
          refine ⟨(i + 1, s'), by simp [removeDestroyingTurn, hget, hd],
            ⟨hf, hc, hin, hmark, fun j hj d hjd => ?_⟩, by simp only; omega⟩
          rcases Nat.lt_succ_iff_lt_or_eq.mp hj with hj | rfl
          · exact hbefore j hj d hjd
          · obtain rfl := Option.some.inj (hget.symm.trans hjd)
            exact (hdes c).symm.trans hd
        | true =>
          obtain ⟨hcc, hinc, hvol⟩ := (hc.fringe_mem v c).mp (List.mem_of_getElem? hget)
          obtain ⟨s'', hs'', hr⟩ := remarks_fringeRemove hc hcc hinc
          rw [hvol] at hs''
          have hfr := fringeOf_fringeRemove hs''
          rw [hc.fringe_index v i c hget] at hfr
          have hdoomed : (s.clause c).destroying = true := (hdes c).symm.trans hd
          refine ⟨(i, s''), by simp [removeDestroyingTurn, hget, hd, hs'', bind, Except.bind,
            pure, Except.pure], ⟨hf.trans hr.frame, hr.containers, fun d hdin => ?_,
            fun d hdd => ?_, fun j hj d hjd => ?_⟩, ?_⟩
          · by_cases hdc : d = c
            · rw [hdc] at hdin
              have := congrArg Mark.inFringe hr.mark
              simp only [Clause.mark] at this
              rw [this] at hdin
              cases hdin
            · have := congrArg Mark.inFringe (hr.others d hdc)
              simp only [Clause.mark] at this
              exact hin d (this.symm.trans hdin)
          · have hdc : d ≠ c := by
              rintro rfl
              rw [hdoomed] at hdd
              cases hdd
            exact (hr.others d hdc).trans (hmark d hdd)
          · simp only at hj hjd
            rw [hfr] at hjd
            exact hbefore j hj d (getElem?_of_ne hlt hj.ne hjd)
          · simp only
            rw [hfr, length_swapRemove hlt]
            omega)
    ((s.fringeOf v).length + 1) (0, s)
    ⟨Frame.refl s, h, fun _ => id, fun _ _ => rfl, fun j hj => absurd hj (Nat.not_lt_zero j)⟩
    (by simp only; omega)
  exact ⟨s', hs', hf, hc, hdone, hin, hmark⟩

theorem removeDestroying_both (h : s.Containers) :
    ∃ s₁ s₂, s.removeDestroying false = .ok s₁ ∧ s₁.removeDestroying true = .ok s₂ ∧ s.Frame s₂ ∧
      s₂.Containers ∧ (∀ v, ∀ c ∈ s₂.fringeOf v, (s.clause c).destroying = false) ∧
      ∀ c, (s.clause c).destroying = false → (s₂.clause c).mark = (s.clause c).mark := by
  obtain ⟨s₁, hs₁, hf₁, hc₁, hfr₁, hin₁, hm₁⟩ := removeDestroying_spec h false
  obtain ⟨s₂, hs₂, hf₂, hc₂, hfr₂, hin₂, hm₂⟩ := removeDestroying_spec hc₁ true
  have hdes₁ (c : ClauseId) : (s₁.clause c).destroying = (s.clause c).destroying :=
    hf₁.field Clause.destroying (fun _ => rfl) c
  refine ⟨s₁, s₂, hs₁, hs₂, hf₁.trans hf₂, hc₂, fun v c hc => ?_, fun c hd => ?_⟩
  · cases v with
    | true => exact (hdes₁ c).symm.trans (hfr₂ c hc)
    | false =>
      obtain ⟨hcc, hin, hv⟩ := (hc₂.fringe_mem false c).mp hc
      refine hfr₁ c ((hc₁.fringe_mem false c).mpr ⟨hf₂.clauses ▸ hcc, hin₂ c hin, ?_⟩)
      rw [← hf₂.isVolatile]
      exact hv
  · exact (hm₂ c ((hdes₁ c).trans hd)).trans (hm₁ c hd)

/-- The lists fit the clauses that stay once the marked ones are swept out of them. -/
theorem Containers.swept (h : s.Containers)
    (hmem : ∀ c, c ∈ s'.clauses ↔ c ∈ s.clauses ∧ (s.clause c).destroying = false)
    (hkept : ∀ c ∈ s'.clauses, s'.clause c = s.clause c)
    (hfringe : ∀ v, s'.fringeOf v = s.fringeOf v)
    (hfr : ∀ v, ∀ c ∈ s.fringeOf v, (s.clause c).destroying = false)
    (hunsat : s'.unsatisfied.Perm (s.unsatisfied.filter fun c => !(s.clause c).destroying)) :
    s'.Containers := by
  have hstay {v : Bool} {c : ClauseId} (hc : c ∈ s.fringeOf v) : c ∈ s'.clauses :=
    (hmem c).mpr ⟨((h.fringe_mem v c).mp hc).1, hfr v c hc⟩
  refine ⟨fun v c => ?_, fun v => ?_, fun v i c hi => ?_, fun c => ?_, ?_⟩
  · rw [hfringe]
    constructor
    · intro hc
      rw [hkept c (hstay hc)]
      exact ⟨hstay hc, ((h.fringe_mem v c).mp hc).2⟩
    · intro hc
      have hin := hc.2
      rw [hkept c hc.1] at hin
      exact (h.fringe_mem v c).mpr ⟨((hmem c).mp hc.1).1, hin⟩
  · rw [hfringe]
    exact h.fringe_nodup v
  · rw [hfringe] at hi
    rw [hkept c (hstay (List.mem_of_getElem? hi))]
    exact h.fringe_index v i c hi
  · rw [hunsat.mem_iff, List.mem_filter, h.unsat_mem, hmem]
    constructor
    · intro hc
      have hc' : c ∈ s'.clauses := (hmem c).mpr ⟨hc.1.1, by simpa using hc.2⟩
      rw [hkept c hc']
      exact ⟨(hmem c).mp hc', hc.1.2⟩
    · intro hc
      have hu := hc.2
      rw [hkept c ((hmem c).mpr hc.1)] at hu
      exact ⟨⟨hc.1.1, hu⟩, by simp [hc.1.2]⟩
  · exact hunsat.nodup_iff.mpr (h.unsat_nodup.filter _)

theorem destroying_removeOccurrence (s : Ltms) (c : ClauseId) (l : Literal PropId) (p : PropId) :
    ((s.removeOccurrence c l).prop p).destroying = (s.prop p).destroying := by
  by_cases hp : p = l.1
  · subst hp
    cases h : l.2 <;> simp [removeOccurrence, setProp, h]
  · simp [removeOccurrence, setProp, hp]

theorem dropOccurrences_spec (ls : List (Literal PropId)) (s : Ltms) (c : ClauseId) :
    ∃ s', ls.foldl (fun s l => if (s.prop l.1).destroying then s else s.removeOccurrence c l) s
        = s' ∧ s.Relinked s' ∧ (∀ p, (s'.prop p).destroying = (s.prop p).destroying) ∧
      (∀ p b, (s.prop p).destroying = true → s'.occurrences p b = s.occurrences p b) ∧
      ∀ p b, (s.prop p).destroying = false → (s.occurrences p b).Nodup →
        (s'.occurrences p b).Nodup ∧
        ∀ d, d ∈ s'.occurrences p b ↔ d ∈ s.occurrences p b ∧ ((p, b) ∈ ls → d ≠ c) := by
  induction ls generalizing s with
  | nil => exact ⟨s, rfl, Relinked.refl s, fun _ => rfl, fun _ _ _ => rfl,
      fun p b _ hn => ⟨hn, by simp⟩⟩
  | cons l ls ih =>
    rw [List.foldl_cons]
    cases hl : (s.prop l.1).destroying with
    | true =>
      obtain ⟨s', hs', hr, hd, hold, hnew⟩ := ih s
      refine ⟨s', by rw [if_pos rfl]; exact hs', hr, hd, hold, fun p b hp hn => ?_⟩
      obtain ⟨hn', hmem⟩ := hnew p b hp hn
      refine ⟨hn', fun d => ?_⟩
      have hne : (p, b) ≠ l := by
        rintro rfl
        rw [hp] at hl
        cases hl
      rw [hmem, List.mem_cons, or_iff_right hne]
    | false =>
      obtain ⟨s', hs', hr, hd, hold, hnew⟩ := ih (s.removeOccurrence c l)
      have hd₁ := destroying_removeOccurrence s c l
      refine ⟨s', by rw [if_neg Bool.false_ne_true]; exact hs',
        (relinked_removeOccurrence s c l).trans hr, fun p => (hd p).trans (hd₁ p),
        fun p b hp => ?_, fun p b hp hn => ?_⟩
      · rw [hold p b ((hd₁ p).trans hp), occurrences_removeOccurrence, if_neg]
        rintro rfl
        rw [hl] at hp
        cases hp
      · obtain ⟨hn₁, hmem₁⟩ := removeOccurrence_spec (c := c) hn l
        obtain ⟨hn', hmem⟩ := hnew p b ((hd₁ p).trans hp) hn₁
        refine ⟨hn', fun d => ?_⟩
        rw [hmem, hmem₁, List.mem_cons]
        tauto

/-- The clauses `gone` have been destroyed. -/
structure Cleared (s : Ltms) (gone : Set ClauseId) (s' : Ltms) : Prop where
  mem : ∀ c, c ∈ s'.clauses ↔ c ∈ s.clauses ∧ c ∉ gone
  nodup : s'.clauses.Nodup
  clause : ∀ c, c ∉ gone → s'.clause c = s.clause c
  value : ∀ p, s'.value p = s.value p
  supportedBy : ∀ p, (s'.prop p).supportedBy = (s.prop p).supportedBy
  destroying : ∀ p, (s'.prop p).destroying = (s.prop p).destroying
  marked : ∀ p b, (s.prop p).destroying = true → s'.occurrences p b = s.occurrences p b
  occurs : ∀ p b, (s.prop p).destroying = false → (s'.occurrences p b).Nodup ∧
    ∀ c, c ∈ s'.occurrences p b ↔ c ∈ s.occurrences p b ∧ c ∉ gone
  props : s'.props = s.props
  nextProp : s'.nextProp = s.nextProp
  nextClause : s'.nextClause = s.nextClause
  timeStamp : s'.timeStamp = s.timeStamp
  fringeOf : ∀ v, s'.fringeOf v = s.fringeOf v
  unsatisfied : s'.unsatisfied = s.unsatisfied
  undoList : s'.undoList = s.undoList

theorem Cleared.refl (hw : s.WellFormed) : s.Cleared ∅ s :=
  ⟨by simp, hw.clauses_nodup, fun _ _ => rfl, fun _ => rfl, fun _ => rfl, fun _ => rfl,
    fun _ _ _ => rfl, fun p b _ => ⟨hw.occurs_nodup p b, by simp⟩, rfl, rfl, rfl, rfl,
    fun _ => rfl, rfl, rfl⟩

theorem Cleared.destroyClause {gone : Set ClauseId} {i : ℕ} (hw : s.WellFormed)
    (h : s.Cleared gone s') (hi : s'.clauses[i]? = some c) :
    s.Cleared (insert c gone) (s'.destroyClause i c) := by
  obtain ⟨hlt, hget⟩ := List.getElem?_eq_some_iff.mp hi
  obtain ⟨hc, hcg⟩ := (h.mem c).mp (List.mem_of_getElem? hi)
  have hk := h.clause c hcg
  set s₁ := { s' with clauses := swapRemove s'.clauses i }
  obtain ⟨s₂, hs₂, hr, hd, hold, hnew⟩ := dropOccurrences_spec (s'.clause c).lits s₁ c
  have heq : s'.destroyClause i c = s₂.setClause c freedClause := by
    unfold Ltms.destroyClause
    simp only
    rw [← hs₂]
  rw [heq]
  have hclauses : (s₂.setClause c freedClause).clauses = swapRemove s'.clauses i := hr.clauses
  have hocc (p : PropId) (b : Bool) :
      (s₂.setClause c freedClause).occurrences p b = s₂.occurrences p b := rfl
  refine ⟨fun d => ?_, ?_, fun d hdg => ?_, fun p => (hr.value p).trans (h.value p),
    fun p => (hr.supportedBy p).trans (h.supportedBy p),
    fun p => (hd p).trans (h.destroying p), fun p b hp => ?_, fun p b hp => ?_,
    hr.props.trans h.props, hr.nextProp.trans h.nextProp, hr.nextClause.trans h.nextClause,
    hr.timeStamp.trans h.timeStamp, fun v => ?_, hr.unsatisfied.trans h.unsatisfied,
    hr.undoList.trans h.undoList⟩
  · rw [hclauses, mem_iff hlt h.nodup, hget, h.mem, Set.mem_insert_iff, not_or]
    tauto
  · rw [hclauses]
    exact SwapRemove.nodup hlt h.nodup
  · rw [Set.mem_insert_iff, not_or] at hdg
    rw [setClause_ne _ _ hdg.1, hr.clause]
    exact h.clause d hdg.2
  · rw [hocc, hold p b ((h.destroying p).trans hp)]
    exact h.marked p b hp
  · obtain ⟨hn, hmem⟩ := h.occurs p b hp
    obtain ⟨hn', hmem'⟩ := hnew p b ((h.destroying p).trans hp) hn
    refine ⟨hn', fun d => ?_⟩
    rw [hocc, hmem', Set.mem_insert_iff, not_or, hk]
    change d ∈ s'.occurrences p b ∧ _ ↔ _
    rw [hmem]
    constructor
    · intro ⟨⟨hds, hdg⟩, hdc⟩
      refine ⟨hds, ?_, hdg⟩
      rintro rfl
      exact hdc (hw.mem_occurrences.mp hds).2 rfl
    · intro ⟨hds, hdc, hdg⟩
      exact ⟨⟨hds, hdg⟩, fun _ => hdc⟩
  · rw [fringeOf_setClause, hr.fringeOf]
    exact h.fringeOf v

theorem Cleared.all_gone {gone : Set ClauseId} {i : ℕ} (h : s.Cleared gone s')
    (hle : s'.clauses.length ≤ i)
    (hi : ∀ c ∈ s'.clauses.take i, (s.clause c).destroying = false) :
    ∀ c ∈ s.clauses, (s.clause c).destroying = true → c ∈ gone := by
  intro c hc hd
  by_contra hcg
  have hmem : c ∈ s'.clauses := (h.mem c).mpr ⟨hc, hcg⟩
  rw [← List.take_of_length_le hle] at hmem
  rw [hi c hmem] at hd
  cases hd

theorem clauses_destroyClause (s : Ltms) (i : ℕ) (c : ClauseId) :
    (s.destroyClause i c).clauses = swapRemove s.clauses i := by
  obtain ⟨s₂, hs₂, hr, -⟩ := dropOccurrences_spec (s.clause c).lits
    { s with clauses := swapRemove s.clauses i } c
  unfold destroyClause
  simp only
  rw [hs₂]
  exact hr.clauses

theorem destroyClauses_spec (hw : s.WellFormed) {gone : Set ClauseId} {n i : ℕ}
    (h : s.Cleared gone s') (hg : ∀ c ∈ gone, (s.clause c).destroying = true)
    (hn : s'.clauses.length ≤ i + n)
    (hi : ∀ c ∈ s'.clauses.take i, (s.clause c).destroying = false) :
    ∃ gone', s.Cleared gone' (destroyClauses n i s') ∧
      (∀ c ∈ gone', (s.clause c).destroying = true) ∧
      ∀ c ∈ s.clauses, (s.clause c).destroying = true → c ∈ gone' := by
  induction n generalizing s' gone i with
  | zero => exact ⟨gone, h, hg, h.all_gone (by omega) hi⟩
  | succ n ih =>
    unfold destroyClauses
    cases hget : s'.clauses[i]? with
    | none => exact ⟨gone, h, hg, h.all_gone (List.getElem?_eq_none_iff.mp hget) hi⟩
    | some c =>
      obtain ⟨hlt, hgc⟩ := List.getElem?_eq_some_iff.mp hget
      have hcg := ((h.mem c).mp (List.mem_of_getElem? hget)).2
      simp only [h.clause c hcg]
      split_ifs with hd
      · have hcl := clauses_destroyClause s' i c
        have hlen := length_swapRemove hlt
        refine ih (h.destroyClause hw hget) ?_ (by rw [hcl]; omega) (fun d hdm => ?_)
        · intro d hdg
          rcases Set.mem_insert_iff.mp hdg with rfl | hdg
          · exact hd
          · exact hg d hdg
        · rw [hcl] at hdm
          obtain ⟨j, hj, hjd⟩ := List.mem_take_iff_getElem.mp hdm
          have hold := getElem?_of_ne (x := d) hlt (j := j) (by omega)
            (by rw [List.getElem?_eq_getElem (by omega), hjd])
          obtain ⟨hjl, hjd⟩ := List.getElem?_eq_some_iff.mp hold
          exact hi d (List.mem_take_iff_getElem.mpr ⟨j, by omega, hjd⟩)
      · refine ih h hg (by omega) fun d hdm => ?_
        rw [List.take_add_one, hget, List.mem_append] at hdm
        rcases hdm with hdm | hdm
        · exact hi d hdm
        · have hdc : d = c := by simpa using hdm
          rw [hdc]
          exact eq_false_of_ne_true hd

/-- The proposition that waits because its supporting clause is destroyed. -/
def doomedSupport (s : Ltms) (c : ClauseId) : Option PropId :=
  if (s.clause c).destroying then
    (s.clause c).getSupports.filter fun p => !(s.prop p).destroying
  else none

theorem doomedSupport_eq_some {q : PropId} : s.doomedSupport c = some q ↔
    (s.clause c).destroying = true ∧ (s.clause c).getSupports = some q ∧
      (s.prop q).destroying = false := by
  unfold doomedSupport
  split_ifs with hd
  · simp [hd, Option.filter_eq_some_iff]
  · simp [hd]

theorem foldl_enqueueSupported (cs : List ClauseId) (s : Ltms) :
    cs.foldl enqueueSupported s =
      { s with undoList := (cs.filterMap s.doomedSupport).reverse ++ s.undoList } := by
  induction cs generalizing s with
  | nil => rfl
  | cons c cs ih =>
    have hstep : s.enqueueSupported c =
        { s with undoList := (s.doomedSupport c).toList ++ s.undoList } := by
      unfold enqueueSupported doomedSupport
      cases (s.clause c).destroying with
      | false => rfl
      | true =>
        rw [if_pos rfl, if_pos rfl]
        cases (s.clause c).getSupports with
        | none => rfl
        | some p => cases h : (s.prop p).destroying <;> simp [Option.filter, h, enqueueForUndo]
    rw [List.foldl_cons, hstep, ih]
    have hsame : doomedSupport { s with undoList := (s.doomedSupport c).toList ++ s.undoList } =
        s.doomedSupport := rfl
    rw [hsame, List.filterMap_cons]
    cases s.doomedSupport c <;> simp

theorem prop_destroyProps (s : Ltms) (p : PropId) : s.destroyProps.prop p =
    if p ∈ s.props ∧ (s.prop p).destroying = true then {} else s.prop p := rfl

theorem occurrences_destroyProps (s : Ltms) (p : PropId) (b : Bool) :
    s.destroyProps.occurrences p b =
      if p ∈ s.props ∧ (s.prop p).destroying = true then [] else s.occurrences p b := by
  simp only [occurrences, prop_destroyProps]
  split_ifs <;> rfl

theorem props_destroyProps_perm (s : Ltms) :
    s.destroyProps.props.Perm (s.props.filter fun p => !(s.prop p).destroying) :=
  sweep_perm (fun p => (s.prop p).destroying) s.props

theorem occurs_destroyProps {gone : Set ClauseId} (hw : s.WellFormed) (hcl : s.Closed)
    (h : s.Cleared gone s') (hg : ∀ c ∈ s.clauses, c ∈ gone ↔ (s.clause c).destroying = true)
    (p : PropId) (b : Bool) : (s'.destroyProps.occurrences p b).Nodup ∧
      ∀ c, c ∈ s'.destroyProps.occurrences p b ↔
        c ∈ s.occurrences p b ∧ (s.clause c).destroying = false := by
  rw [occurrences_destroyProps, h.destroying, h.props]
  split_ifs with hp
  · refine ⟨List.nodup_nil, fun c => iff_of_false List.not_mem_nil fun hc => ?_⟩
    have hd := hc.2
    rw [hcl p b hp.2 c hc.1] at hd
    cases hd
  · cases hd : (s.prop p).destroying with
    | false =>
      obtain ⟨hn, hmem⟩ := h.occurs p b hd
      refine ⟨hn, fun c => ?_⟩
      rw [hmem]
      refine and_congr_right fun hc => ?_
      rw [hg c (hw.mem_occurrences.mp hc).1, Bool.not_eq_true]
    | true =>
      have hnil : s.occurrences p b = [] := List.eq_nil_iff_forall_not_mem.mpr fun c hc => by
        obtain ⟨hcc, hl⟩ := hw.mem_occurrences.mp hc
        exact hp ⟨hw.lits_props c hcc _ hl, hd⟩
      rw [h.marked p b hd, hnil]
      exact ⟨List.nodup_nil, by simp⟩

theorem nodup_doomedSupport (hw : s.WellFormed) {rank : PropId → ℕ}
    (hs : s.Support ∅ s.litVal rank) : (s.clauses.filterMap s.doomedSupport).Nodup := by
  rw [List.Nodup, List.pairwise_filterMap]
  refine hw.clauses_nodup.imp_of_mem ?_
  intro c d hc hd hne q hq r hr he
  subst he
  have hcq := (hs.back c hc q (doomedSupport_eq_some.mp hq).2.1).2
  have hdq := (hs.back d hd q (doomedSupport_eq_some.mp hr).2.1).2
  exact hne (Option.some.inj (hcq.symm.trans hdq))

/-- The marked objects are in no table, and the propositions whose support they were
wait to be unassigned. -/
structure Swept (s s' : Ltms) : Prop where
  clauses_mem : ∀ c, c ∈ s'.clauses ↔ c ∈ s.clauses ∧ (s.clause c).destroying = false
  clauses_nodup : s'.clauses.Nodup
  props_mem : ∀ p, p ∈ s'.props ↔ p ∈ s.props ∧ (s.prop p).destroying = false
  props_nodup : s'.props.Nodup
  nextProp : s'.nextProp = s.nextProp
  nextClause : s'.nextClause = s.nextClause
  timeStamp : s'.timeStamp = s.timeStamp
  core : ∀ c ∈ s'.clauses, (s'.clause c).core = (s.clause c).core
  supports : ∀ c ∈ s'.clauses, (s'.clause c).supports = (s.clause c).supports
  mark : ∀ c ∈ s'.clauses, (s'.clause c).mark = (s.clause c).mark
  value : ∀ p, s'.value p =
    if p ∈ s.props ∧ (s.prop p).destroying = true then .unknown else s.value p
  supportedBy : ∀ p, (s'.prop p).supportedBy =
    if p ∈ s.props ∧ (s.prop p).destroying = true then none else (s.prop p).supportedBy
  destroying : ∀ p, (s'.prop p).destroying =
    if p ∈ s.props ∧ (s.prop p).destroying = true then false else (s.prop p).destroying
  occurs : ∀ p b, (s'.occurrences p b).Nodup ∧ ∀ c, c ∈ s'.occurrences p b ↔
    c ∈ s.occurrences p b ∧ (s.clause c).destroying = false
  containers : s'.Containers
  undo_nodup : s'.undoList.Nodup
  undo_mem : ∀ q, q ∈ s'.undoList ↔ ∃ c ∈ s.clauses, (s.clause c).destroying = true ∧
    (s.clause c).getSupports = some q ∧ (s.prop q).destroying = false

namespace Swept

variable (h : s.Swept s')
include h

theorem field {β : Type*} (f : Clause → β) (hf : ∀ k, f k.core = f k) (hc : c ∈ s'.clauses) :
    f (s'.clause c) = f (s.clause c) := by
  rw [← hf, h.core c hc, hf]

theorem lits (hc : c ∈ s'.clauses) : (s'.clause c).lits = (s.clause c).lits :=
  h.field Clause.lits (fun _ => rfl) hc

theorem getSupports (hc : c ∈ s'.clauses) :
    (s'.clause c).getSupports = (s.clause c).getSupports := by
  have hl := h.field Clause.literals (fun _ => rfl) hc
  simp only [Clause.getSupports, h.supports c hc, hl]

theorem active : s'.Active c ↔ s.Active c ∧ (s.clause c).destroying = false := by
  unfold Active
  constructor
  · intro ⟨hc, hdel⟩
    obtain ⟨hcs, hd⟩ := (h.clauses_mem c).mp hc
    exact ⟨⟨hcs, (h.field Clause.deleted (fun _ => rfl) hc).symm.trans hdel⟩, hd⟩
  · intro ⟨⟨hcs, hdel⟩, hd⟩
    have hc := (h.clauses_mem c).mpr ⟨hcs, hd⟩
    exact ⟨hc, (h.field Clause.deleted (fun _ => rfl) hc).trans hdel⟩

theorem unmarked (hw : s.WellFormed) (hcl : s.Closed) (hc : c ∈ s'.clauses)
    (hl : (p, b) ∈ (s.clause c).lits) : (s.prop p).destroying = false := by
  obtain ⟨hcs, hd⟩ := (h.clauses_mem c).mp hc
  by_contra hp
  have := hcl p b (by simpa using hp) c (hw.mem_occurrences.mpr ⟨hcs, hl⟩)
  rw [hd] at this
  cases this

theorem litVal_eq (hw : s.WellFormed) (hcl : s.Closed) (hc : c ∈ s'.clauses) :
    ∀ l ∈ (s.clause c).lits, s'.litVal l = s.litVal l := by
  rintro ⟨p, b⟩ hl
  have hp := h.unmarked hw hcl hc hl
  simp only [litVal, h.value, hp, Bool.false_eq_true, and_false, if_false]

theorem wellFormed (hw : s.WellFormed) (hcl : s.Closed) : s'.WellFormed := by
  refine ⟨h.props_nodup, h.clauses_nodup, fun p hp => ?_, fun c hc => ?_, fun c hc => ?_,
    fun c hc l hl => ?_, fun c p b => ?_, fun p b => (h.occurs p b).1⟩
  · rw [h.nextProp]
    exact hw.prop_lt p ((h.props_mem p).mp hp).1
  · rw [h.nextClause]
    exact hw.clause_lt c ((h.clauses_mem c).mp hc).1
  · have hs := hw.shape c ((h.clauses_mem c).mp hc).1
    have h₁ := h.field Clause.numLits (fun _ => rfl) hc
    have h₂ := h.field Clause.numPosLits (fun _ => rfl) hc
    have h₃ := h.field Clause.literals (fun _ => rfl) hc
    refine ⟨?_, ?_, ?_, ?_, h.lits hc ▸ hs.nodup⟩
    · rw [h₁, h₃]
      exact hs.numLits
    · rw [h₂]
      exact hs.numPos_nonneg
    · rw [h₁, h₂]
      exact hs.numPos_le
    · rw [h₃]
      exact hs.bound
  · rw [h.lits hc] at hl
    exact (h.props_mem l.1).mpr ⟨hw.lits_props c ((h.clauses_mem c).mp hc).1 l hl,
      h.unmarked hw hcl hc hl⟩
  · rw [(h.occurs p b).2, hw.mem_occurrences, h.clauses_mem]
    constructor
    · intro ⟨⟨hc, hl⟩, hd⟩
      refine ⟨⟨hc, hd⟩, ?_⟩
      rw [h.lits ((h.clauses_mem c).mpr ⟨hc, hd⟩)]
      exact hl
    · intro ⟨hc, hl⟩
      rw [h.lits ((h.clauses_mem c).mpr hc)] at hl
      exact ⟨⟨hc.1, hl⟩, hc.2⟩

theorem marked (hw : s.WellFormed) (hcl : s.Closed) (hm : s.Marked s.litVal) :
    s'.Marked s'.litVal := by
  refine ⟨fun c ha => ?_, fun c hc hdel => ?_⟩
  · have ha' := h.active.mp ha
    rw [h.mark c ha.1, h.lits ha.1]
    exact (hm.active c ha'.1).congr (h.litVal_eq hw hcl ha.1)
  · rw [h.mark c hc, h.lits hc]
    refine hm.deleted c ((h.clauses_mem c).mp hc).1 ?_
    exact (h.field Clause.deleted (fun _ => rfl) hc).symm.trans hdel

theorem support (hinv : s.Inv) (hcl : s.Closed) {rank : PropId → ℕ}
    (hs : s.Support ∅ s.litVal rank) : s'.Support s'.waiting s'.litVal rank := by
  have hw := hinv.wf
  have hgs {d : ClauseId} (hd : d ∈ s'.clauses) {q : PropId}
      (hq : (s'.clause d).getSupports = some q) :
      s.Active d ∧ (s.prop q).supportedBy = some d ∧ (s.prop q).destroying = false := by
    rw [h.getSupports hd] at hq
    have hds := ((h.clauses_mem d).mp hd).1
    obtain ⟨x, hx, -⟩ := hs.just d hds q hq
    obtain ⟨ha, hb⟩ := hs.back d hds q hq
    exact ⟨ha, hb, h.unmarked hw hcl hd hx⟩
  refine ⟨fun q => ?_, fun q hq => ?_, fun q d hq hn => ?_, fun d hd q hq => ?_,
    fun d hd q hq => ?_, h.undo_nodup, fun q hq => ⟨hq, ?_⟩⟩
  · rw [h.value, h.supportedBy]
    split_ifs
    · simp
    · exact hs.unknown q
  · rw [h.value] at hq
    split_ifs at hq with hdoom
    · exact absurd rfl hq
    · have hqp := hs.alloc q hq
      exact (h.props_mem q).mpr ⟨hqp, eq_false_of_ne_true fun hd => hdoom ⟨hqp, hd⟩⟩
  · rw [h.supportedBy] at hq
    split_ifs at hq with hdoom
    obtain ⟨ha, hg⟩ := hs.forth q d hq (Set.notMem_empty q)
    have hqp : q ∈ s.props := by
      obtain ⟨x, hx, -⟩ := hs.just d ha.1 q hg
      exact hw.lits_props d ha.1 _ hx
    -- a destroyed supporter would have left `q` waiting
    have hd : (s.clause d).destroying = false := by
      by_contra hd
      refine hn ((h.undo_mem q).mpr ⟨d, ha.1, by simpa using hd, hg, ?_⟩)
      exact eq_false_of_ne_true fun hqd => hdoom ⟨hqp, hqd⟩
    have hdc := (h.clauses_mem d).mpr ⟨ha.1, hd⟩
    exact ⟨h.active.mpr ⟨ha, hd⟩, (h.getSupports hdc).trans hg⟩
  · obtain ⟨ha, hb, hqd⟩ := hgs hd hq
    refine ⟨h.active.mpr ⟨ha, ((h.clauses_mem d).mp hd).2⟩, ?_⟩
    rw [h.supportedBy, if_neg (by simp [hqd])]
    exact hb
  · have hlv := h.litVal_eq hw hcl hd
    rw [h.getSupports hd] at hq
    obtain ⟨x, hx, ht, hrest⟩ := hs.just d ((h.clauses_mem d).mp hd).1 q hq
    rw [h.lits hd]
    refine ⟨x, hx, (hlv _ hx).trans ht, fun l hl hne => ?_⟩
    rw [hlv l hl]
    exact hrest l hl hne
  · obtain ⟨d, hd, hdd, hg, hqd⟩ := (h.undo_mem q).mp hq
    have hback := (hs.back d hd q hg).2
    refine ⟨?_, fun e he hge => ?_⟩
    · rw [h.value, if_neg (by simp [hqd]), Ne, hs.unknown, hback]
      simp
    · obtain rfl := Option.some.inj (hback.symm.trans (hgs he hge).2.1)
      rw [((h.clauses_mem d).mp he).2] at hdd
      cases hdd

theorem undoing (hinv : s.Inv) (hcl : s.Closed) : ∃ rank, Undoing rank s' := by
  obtain ⟨rank, hs⟩ := hinv.support
  exact ⟨rank, h.wellFormed hinv.wf hcl, h.containers, h.marked hinv.wf hcl hinv.marks,
    h.support hinv hcl hs⟩

theorem stamps (hs : s.Stamps) : s'.Stamps := by
  refine ⟨h.timeStamp ▸ hs.theory_le, fun c hc => ?_⟩
  rw [h.field Clause.timeStamp (fun _ => rfl) hc, h.timeStamp]
  exact hs.clause_le c ((h.clauses_mem c).mp hc).1

end Swept

/-- The fringes of `s₂` are swept; its list of unsatisfied clauses is then swept too, and the
propositions that only marked clauses support wait. -/
structure Enqueued (s s₂ s' : Ltms) : Prop where
  frame : s.Frame s₂
  containers : s₂.Containers
  fringe : ∀ v, ∀ c ∈ s₂.fringeOf v, (s.clause c).destroying = false
  mark : ∀ c, (s.clause c).destroying = false → (s₂.clause c).mark = (s.clause c).mark
  eq : s' = { s₂ with
    unsatisfied := sweep (fun c => (s₂.clause c).destroying) s₂.unsatisfied
    undoList := (s.clauses.filterMap s.doomedSupport).reverse }

namespace Enqueued

variable {s₂ s₅ : Ltms} {gone : Set ClauseId}

theorem skeleton (h : s.Enqueued s₂ s') : s.Skeleton s' := by
  have hf := h.frame
  rw [h.eq]
  exact ⟨⟨hf.occurrences, hf.props, hf.clauses, hf.nextProp, hf.nextClause, hf.timeStamp, hf.core⟩,
    hf.prop⟩

theorem clause (h : s.Enqueued s₂ s') : s'.clause = s₂.clause := by rw [h.eq]

theorem clauseDestroying (h : s.Enqueued s₂ s') (c : ClauseId) :
    (s'.clause c).destroying = (s.clause c).destroying :=
  h.skeleton.field Clause.destroying (fun _ => rfl) c

theorem destroyClauses (hw : s.WellFormed) (h : s.Enqueued s₂ s') : ∃ gone,
    s'.Cleared gone (Ltms.destroyClauses s'.clauses.length 0 s') ∧
      ∀ c ∈ s.clauses, c ∈ gone ↔ (s.clause c).destroying = true := by
  have hw' := h.skeleton.wellFormed hw
  obtain ⟨gone, hclr, hgone, hall⟩ := destroyClauses_spec hw' (n := s'.clauses.length) (i := 0)
    (Cleared.refl hw') (fun c hc => absurd hc (Set.notMem_empty c)) (by omega) (by simp)
  refine ⟨gone, hclr, fun c hc => ⟨fun hcg => ?_, fun hd => ?_⟩⟩
  · exact (h.clauseDestroying c).symm.trans (hgone c hcg)
  · exact hall c (h.skeleton.clauses ▸ hc) ((h.clauseDestroying c).trans hd)

section

variable (h : s.Enqueued s₂ s') (hclr : s'.Cleared gone s₅)
include h hclr

theorem destroying (p : PropId) : (s₅.prop p).destroying = (s.prop p).destroying := by
  rw [hclr.destroying, h.skeleton.prop]

theorem prop (p : PropId) : s₅.destroyProps.prop p =
    if p ∈ s.props ∧ (s.prop p).destroying = true then {} else s₅.prop p := by
  rw [prop_destroyProps, h.destroying hclr, hclr.props, h.skeleton.props]

theorem props_perm : s₅.destroyProps.props.Perm (s.props.filter fun p => !(s.prop p).destroying) := by
  have hsweep := s₅.props_destroyProps_perm
  simp only [h.destroying hclr, hclr.props, h.skeleton.props] at hsweep
  exact hsweep

theorem clause_kept (hc : c ∈ s₅.destroyProps.clauses) : s₅.destroyProps.clause c = s₂.clause c := by
  rw [← h.clause]
  exact hclr.clause c ((hclr.mem c).mp hc).2

variable (hg : ∀ c ∈ s.clauses, c ∈ gone ↔ (s.clause c).destroying = true)
include hg

theorem mem_clauses (c : ClauseId) :
    c ∈ s₅.destroyProps.clauses ↔ c ∈ s.clauses ∧ (s.clause c).destroying = false := by
  change c ∈ s₅.clauses ↔ _
  rw [hclr.mem, h.skeleton.clauses]
  refine and_congr_right fun hc => ?_
  rw [hg c hc, Bool.not_eq_true]

theorem occurs (hw : s.WellFormed) (hcl : s.Closed) (p : PropId) (b : Bool) :
    (s₅.destroyProps.occurrences p b).Nodup ∧ ∀ c, c ∈ s₅.destroyProps.occurrences p b ↔
      c ∈ s.occurrences p b ∧ (s.clause c).destroying = false := by
  have hcl' : s'.Closed := by
    intro q a hq c hc
    rw [h.skeleton.prop] at hq
    rw [h.skeleton.occurrences] at hc
    exact (h.clauseDestroying c).trans (hcl q a hq c hc)
  have hg' (c : ClauseId) (hc : c ∈ s'.clauses) : c ∈ gone ↔ (s'.clause c).destroying = true := by
    rw [hg c (h.skeleton.clauses ▸ hc), h.clauseDestroying]
  obtain ⟨hn, hmem⟩ := occurs_destroyProps (h.skeleton.wellFormed hw) hcl' hclr hg' p b
  refine ⟨hn, fun c => ?_⟩
  rw [hmem, h.skeleton.occurrences, h.clauseDestroying]

theorem containers_swept : s₅.destroyProps.Containers := by
  have hdes (c : ClauseId) : (s₂.clause c).destroying = (s.clause c).destroying :=
    h.frame.field Clause.destroying (fun _ => rfl) c
  refine h.containers.swept (fun c => ?_) (fun c hc => h.clause_kept hclr hc) (fun v => ?_)
    (fun v c hc => ?_) ?_
  · rw [h.mem_clauses hclr hg, hdes, h.frame.clauses]
  · refine (hclr.fringeOf v).trans ?_
    rw [h.eq]
    rfl
  · exact (hdes c).trans (h.fringe v c hc)
  · have hunsat : s₅.destroyProps.unsatisfied =
        sweep (fun c => (s₂.clause c).destroying) s₂.unsatisfied :=
      hclr.unsatisfied.trans (by rw [h.eq])
    rw [hunsat]
    exact sweep_perm _ _

theorem swept (hinv : s.Inv) (hcl : s.Closed) : s.Swept s₅.destroyProps := by
  obtain ⟨rank, hsup⟩ := hinv.support
  have hmem := h.mem_clauses hclr hg
  have hperm := h.props_perm hclr
  have hundo : s₅.destroyProps.undoList = (s.clauses.filterMap s.doomedSupport).reverse :=
    hclr.undoList.trans (by rw [h.eq])
  refine ⟨hmem, hclr.nodup, fun p => ?_, ?_, hclr.nextProp.trans h.skeleton.nextProp,
    hclr.nextClause.trans h.skeleton.nextClause, hclr.timeStamp.trans h.skeleton.timeStamp,
    fun c hc => ?_, fun c hc => ?_, fun c hc => ?_, fun p => ?_, fun p => ?_, fun p => ?_,
    h.occurs hclr hg hinv.wf hcl, h.containers_swept hclr hg, ?_, fun q => ?_⟩
  · rw [hperm.mem_iff, List.mem_filter, Bool.not_eq_true']
  · exact hperm.nodup_iff.mpr (hinv.wf.props_nodup.filter _)
  · rw [h.clause_kept hclr hc]
    exact h.frame.core c
  · rw [h.clause_kept hclr hc]
    exact h.frame.supports c
  · rw [h.clause_kept hclr hc]
    exact h.mark c ((hmem c).mp hc).2
  · simp only [value, h.prop hclr]
    split_ifs
    · rfl
    · exact (hclr.value p).trans (h.skeleton.value p)
  · simp only [h.prop hclr]
    split_ifs
    · rfl
    · rw [hclr.supportedBy, h.skeleton.prop]
  · simp only [h.prop hclr]
    split_ifs
    · rfl
    · exact h.destroying hclr p
  · rw [hundo, List.nodup_reverse]
    exact nodup_doomedSupport hinv.wf hsup
  · rw [hundo, List.mem_reverse, List.mem_filterMap]
    simp only [doomedSupport_eq_some]

end

end Enqueued

theorem sweep_spec (h : s.Inv) (hcl : s.Closed) : ∃ s₁ s₂ s', s.removeDestroying false = .ok s₁ ∧
    s₁.removeDestroying true = .ok s₂ ∧
    ptheoryFinishDestroying (s₂.removeMarkedFromUnsat.clauses.foldl enqueueSupported
      s₂.removeMarkedFromUnsat) = s' ∧ s.Swept s' := by
  obtain ⟨s₁, s₂, hs₁, hs₂, hf, hc₂, hfringe, hmark⟩ := removeDestroying_both h.containers
  have hsame : s₂.doomedSupport = s.doomedSupport := by
    funext c
    simp only [doomedSupport, hf.field Clause.destroying (fun _ => rfl), hf.getSupports, hf.prop]
  have henqueued : s.Enqueued s₂
      (s₂.removeMarkedFromUnsat.clauses.foldl enqueueSupported s₂.removeMarkedFromUnsat) := by
    refine ⟨hf, hc₂, hfringe, hmark, ?_⟩
    have hundo : (s₂.clauses.filterMap s₂.doomedSupport).reverse ++ s₂.undoList =
        (s.clauses.filterMap s.doomedSupport).reverse := by
      rw [hsame, hf.clauses, hf.undoList, h.undo, List.append_nil]
    rw [foldl_enqueueSupported, ← hundo]
    rfl
  obtain ⟨gone, hclr, hg⟩ := henqueued.destroyClauses h.wf
  exact ⟨s₁, s₂, _, hs₁, hs₂, rfl, henqueued.swept hclr hg h hcl⟩

end Livingstone.Ltms
