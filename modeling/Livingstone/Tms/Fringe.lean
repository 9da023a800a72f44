import Livingstone.Tms.Invariant

/-! The primitive updates of a clause keep the fringes and the unsatisfied list
in step with the flags. Each is described by what it does to one mark. -/

namespace Livingstone.Ltms

open SwapRemove

variable {s : Ltms} {c : ClauseId}

@[simp] theorem setClause_same (s : Ltms) (c : ClauseId) (k : Clause) :
    (s.setClause c k).clause c = k := by
  simp [setClause]

@[simp] theorem setClause_ne (s : Ltms) {c d : ClauseId} (k : Clause) (h : d ≠ c) :
    (s.setClause c k).clause d = s.clause d := by
  simp [setClause, h]

@[simp] theorem setClause_setClause (s : Ltms) (c : ClauseId) (k k' : Clause) :
    (s.setClause c k).setClause c k' = s.setClause c k' := by
  simp [setClause]

@[simp] theorem setFringe_clause (s : Ltms) (v : Bool) (cs : List ClauseId) :
    (s.setFringe v cs).clause = s.clause := by
  cases v <;> rfl

@[simp] theorem setFringe_clauses (s : Ltms) (v : Bool) (cs : List ClauseId) :
    (s.setFringe v cs).clauses = s.clauses := by
  cases v <;> rfl

@[simp] theorem setFringe_unsatisfied (s : Ltms) (v : Bool) (cs : List ClauseId) :
    (s.setFringe v cs).unsatisfied = s.unsatisfied := by
  cases v <;> rfl

@[simp] theorem fringeOf_setClause (s : Ltms) (c : ClauseId) (k : Clause) (v : Bool) :
    (s.setClause c k).fringeOf v = s.fringeOf v := rfl

theorem fringeOf_setFringe (s : Ltms) (v w : Bool) (cs : List ClauseId) :
    (s.setFringe v cs).fringeOf w = if w = v then cs else s.fringeOf w := by
  cases v <;> cases w <;> rfl

theorem skeleton_setClause (s : Ltms) (c : ClauseId) (k : Clause)
    (h : k.core = (s.clause c).core) : s.Skeleton (s.setClause c k) := by
  refine ⟨⟨fun _ _ => rfl, rfl, rfl, rfl, rfl, rfl, fun d => ?_⟩, rfl⟩
  by_cases hd : d = c
  · subst hd
    rw [setClause_same, h]
  · rw [setClause_ne s k hd]

theorem frame_setClause (s : Ltms) (c : ClauseId) (k : Clause) (h : k.core = (s.clause c).core)
    (hs : k.supports = (s.clause c).supports) : s.Frame (s.setClause c k) := by
  refine ⟨skeleton_setClause s c k h, rfl, fun d => ?_⟩
  by_cases hd : d = c
  · subst hd
    rw [setClause_same, hs]
  · rw [setClause_ne s k hd]

theorem frame_setFringe (s : Ltms) (v : Bool) (cs : List ClauseId) :
    s.Frame (s.setFringe v cs) := by
  cases v <;> exact ⟨⟨⟨fun _ _ => rfl, rfl, rfl, rfl, rfl, rfl, fun _ => rfl⟩, rfl⟩, rfl,
    fun _ => rfl⟩

theorem containers_setClause (h : s.Containers) {k : Clause}
    (hv : k.isVolatile = (s.clause c).isVolatile) (hf : k.inFringe = (s.clause c).inFringe)
    (hu : k.unsatisfied = (s.clause c).unsatisfied)
    (hi : k.fringeIndex = (s.clause c).fringeIndex) : (s.setClause c k).Containers := by
  have same {β : Type} (f : Clause → β) (hf : f k = f (s.clause c)) (d : ClauseId) :
      f ((s.setClause c k).clause d) = f (s.clause d) := by
    by_cases hd : d = c
    · subst hd
      rw [setClause_same, hf]
    · rw [setClause_ne s k hd]
  refine ⟨fun v d => ?_, h.fringe_nodup, fun v i d hd => ?_, fun d => ?_, h.unsat_nodup⟩
  · rw [same (·.inFringe) hf, same (·.isVolatile) hv]
    exact h.fringe_mem v d
  · rw [same (·.fringeIndex) hi]
    exact h.fringe_index v i d hd
  · rw [same (·.unsatisfied) hu]
    exact h.unsat_mem d

theorem remarks_setClause (h : s.Containers) {k : Clause} (hk : k.core = (s.clause c).core)
    (hs : k.supports = (s.clause c).supports) (hf : k.inFringe = (s.clause c).inFringe)
    (hu : k.unsatisfied = (s.clause c).unsatisfied)
    (hi : k.fringeIndex = (s.clause c).fringeIndex) :
    s.Remarks (s.setClause c k) c k.mark :=
  ⟨frame_setClause s c k hk hs,
    containers_setClause h (show k.core.isVolatile = _ from congrArg (·.isVolatile) hk) hf hu hi,
    by rw [setClause_same], fun d hd => by rw [setClause_ne s k hd]⟩

theorem remarks_setSatisfyingProp (h : s.Containers) (p : Option PropId) :
    s.Remarks (s.setSatisfyingProp c p) c { (s.clause c).mark with satisfyingProp := p } :=
  remarks_setClause h rfl rfl rfl rfl rfl

theorem remarks_of_fringe {s' : Ltms} {v b : Bool} (h : s.Containers) (hc : c ∈ s.clauses)
    (hv : (s.clause c).isVolatile = v) (hframe : s.Frame s')
    (hother : ∀ w, w ≠ v → s'.fringeOf w = s.fringeOf w)
    (hunsat : s'.unsatisfied = s.unsatisfied)
    (hmem : ∀ d, d ∈ s'.fringeOf v ↔ if d = c then b = true else d ∈ s.fringeOf v)
    (hnodup : (s'.fringeOf v).Nodup)
    (hindex : ∀ w i d, (s'.fringeOf w)[i]? = some d → (s'.clause d).fringeIndex = i)
    (hmark : (s'.clause c).mark = { (s.clause c).mark with inFringe := b })
    (hothers : ∀ d, d ≠ c → (s'.clause d).mark = (s.clause d).mark) :
    s.Remarks s' c { (s.clause c).mark with inFringe := b } := by
  have hflag (d : ClauseId) : (s'.clause d).inFringe = if d = c then b else (s.clause d).inFringe := by
    split_ifs with hd
    · exact hd ▸ congrArg Mark.inFringe hmark
    · exact congrArg Mark.inFringe (hothers d hd)
  have huns (d : ClauseId) : (s'.clause d).unsatisfied = (s.clause d).unsatisfied := by
    by_cases hd : d = c
    · exact hd ▸ congrArg Mark.unsatisfied hmark
    · exact congrArg Mark.unsatisfied (hothers d hd)
  refine ⟨hframe, ⟨fun w d => ?_, fun w => ?_, hindex, fun d => ?_, ?_⟩, hmark, hothers⟩
  · rw [hframe.clauses, hframe.isVolatile, hflag]
    by_cases hw : w = v
    · subst hw
      rw [hmem]
      split_ifs with hd
      · subst hd
        simp [hc, hv]
      · exact h.fringe_mem w d
    · rw [hother w hw, h.fringe_mem]
      split_ifs with hd
      · subst hd
        simp [hv, show v ≠ w from fun he => hw he.symm]
      · rfl
  · by_cases hw : w = v
    · exact hw ▸ hnodup
    · exact hother w hw ▸ h.fringe_nodup w
  · rw [hunsat, hframe.clauses, huns]
    exact h.unsat_mem d
  · rw [hunsat]
    exact h.unsat_nodup

theorem Containers.notMem_fringe (h : s.Containers) (hin : (s.clause c).inFringe = false)
    (v : Bool) : c ∉ s.fringeOf v := by
  intro hm
  have := ((h.fringe_mem v c).mp hm).2.1
  simp [hin] at this

theorem remarks_insertIntoFringe (h : s.Containers) (hc : c ∈ s.clauses) :
    s.Remarks (s.insertIntoFringe c) c { (s.clause c).mark with inFringe := true } := by
  unfold insertIntoFringe
  split_ifs with hin
  · refine ⟨Frame.refl s, h, ?_, fun _ _ => rfl⟩
    simp [Clause.mark, hin]
  · have hnot := h.notMem_fringe (eq_false_of_ne_true hin)
    set v := (s.clause c).isVolatile with hv
    set k := { s.clause c with inFringe := true, fringeIndex := (s.fringeOf v).length }
    have hpush : s.fringePush v c = (s.setClause c k).setFringe v (s.fringeOf v ++ [c]) := rfl
    rw [hpush]
    refine remarks_of_fringe h hc hv.symm ((frame_setClause s c k rfl rfl).trans (frame_setFringe _ v _))
      (fun w hw => ?_) (by rw [setFringe_unsatisfied]; rfl) (fun d => ?_) ?_ (fun w i d hd => ?_)
      ?_ (fun d hd => ?_)
    · rw [fringeOf_setFringe, if_neg hw, fringeOf_setClause]
    · rw [fringeOf_setFringe, if_pos rfl, List.mem_append, List.mem_singleton]
      split_ifs with hd
      · simp [hd]
      · simp [hd]
    · rw [fringeOf_setFringe, if_pos rfl]
      simpa using (h.fringe_nodup v).concat (hnot v)
    · rw [fringeOf_setFringe] at hd
      rw [setFringe_clause]
      split_ifs at hd with hw
      · rcases lt_or_ge i (s.fringeOf v).length with hlt | hge
        · rw [List.getElem?_append_left hlt] at hd
          have hne : d ≠ c := fun he => hnot v (he ▸ List.mem_of_getElem? hd)
          rw [setClause_ne s k hne]
          exact h.fringe_index v i d hd
        · rw [List.getElem?_append_right hge, List.getElem?_singleton] at hd
          split_ifs at hd with hi
          obtain rfl : c = d := by simpa using hd
          rw [setClause_same]
          change (s.fringeOf v).length = i
          omega
      · have hne : d ≠ c := fun he => hnot w (he ▸ List.mem_of_getElem? hd)
        rw [setClause_ne s k hne]
        exact h.fringe_index w i d hd
    · rw [setFringe_clause, setClause_same]
      rfl
    · rw [setFringe_clause, setClause_ne s k hd]

/-- The clause `c` is taken out of its fringe at `i`, and the clause that moves there has not been told
its new index. -/
structure TakenOut (s : Ltms) (c : ClauseId) (v : Bool) (i : ℕ) (s₁ : Ltms) : Prop where
  frame : s.Frame s₁
  fringeOf : ∀ w, s₁.fringeOf w = if w = v then swapRemove (s.fringeOf v) i else s.fringeOf w
  unsatisfied : s₁.unsatisfied = s.unsatisfied
  self : s₁.clause c = { s.clause c with inFringe := false }
  others : ∀ d, d ≠ c → s₁.clause d = s.clause d

theorem takenOut_takeFromFringe (s : Ltms) (c : ClauseId) (v : Bool) (i : ℕ) :
    s.TakenOut c v i ((s.setFringe v (swapRemove (s.fringeOf v) i)).takeFromFringe c) := by
  refine ⟨?_, fun w => ?_, setFringe_unsatisfied s v _, ?_, fun d hd => ?_⟩
  · exact (frame_setFringe s v _).trans (frame_setClause _ c _
      (by simp only [setFringe_clause]; rfl) (by simp only [setFringe_clause]))
  · simp only [takeFromFringe, fringeOf_setClause, fringeOf_setFringe]
  · simp only [takeFromFringe, setClause_same, setFringe_clause]
  · simp only [takeFromFringe, setClause_ne _ _ hd, setFringe_clause]

namespace TakenOut

variable {s₁ : Ltms} {v : Bool} {i : ℕ} {d : ClauseId}

section

variable (h : s.Containers) (hget : (s.fringeOf v)[i]? = some c)
include h hget

theorem mem_swapRemove (d : ClauseId) : d ∈ swapRemove (s.fringeOf v) i ↔
    if d = c then false = true else d ∈ s.fringeOf v := by
  obtain ⟨hlt, hc⟩ := List.getElem?_eq_some_iff.mp hget
  rw [mem_iff hlt (h.fringe_nodup v), hc]
  split_ifs with hd <;> simp [hd]

theorem nodup (ht : s.TakenOut c v i s₁) : (s₁.fringeOf v).Nodup := by
  rw [ht.fringeOf, if_pos rfl]
  exact SwapRemove.nodup (List.getElem?_eq_some_iff.mp hget).1 (h.fringe_nodup v)

theorem fringeIndex (ht : s.TakenOut c v i s₁) {w : Bool} {k : ℕ}
    (hd : (s₁.fringeOf w)[k]? = some d) (hk : w = v → k ≠ i) : (s₁.clause d).fringeIndex = k := by
  obtain ⟨hlt, hc⟩ := List.getElem?_eq_some_iff.mp hget
  have hne : d ≠ c := by
    rintro rfl
    have hm := List.mem_of_getElem? hd
    rw [ht.fringeOf] at hm
    split_ifs at hm with hw
    · simpa using (mem_swapRemove h hget d).mp hm
    · have hcv := (h.fringe_mem v d).mp (List.mem_of_getElem? hget)
      exact hw (((h.fringe_mem w d).mp hm).2.2.symm.trans hcv.2.2)
  rw [ht.others d hne]
  rw [ht.fringeOf] at hd
  split_ifs at hd with hw
  · exact h.fringe_index v k d (getElem?_of_ne hlt (hk hw) hd)
  · exact h.fringe_index w k d hd

theorem remarks_last (ht : s.TakenOut c v i s₁) (hlast : i + 1 = (s.fringeOf v).length) :
    s.Remarks s₁ c { (s.clause c).mark with inFringe := false } := by
  obtain ⟨hc, -, hv⟩ := (h.fringe_mem v c).mp (List.mem_of_getElem? hget)
  have hlt := (List.getElem?_eq_some_iff.mp hget).1
  refine remarks_of_fringe h hc hv ht.frame (fun w hw => ?_) ht.unsatisfied (fun d => ?_)
    (ht.nodup h hget) (fun w k d hd => ht.fringeIndex h hget hd ?_) ?_ (fun d hd => ?_)
  · rw [ht.fringeOf, if_neg hw]
  · rw [ht.fringeOf, if_pos rfl]
    exact mem_swapRemove h hget d
  · rintro rfl rfl
    have hk := (List.getElem?_eq_some_iff.mp hd).1
    rw [ht.fringeOf, if_pos rfl, length_swapRemove hlt] at hk
    omega
  · rw [ht.self]
    rfl
  · rw [ht.others d hd]

theorem remarks_moved (ht : s.TakenOut c v i s₁) (hd : (s₁.fringeOf v)[i]? = some d) :
    s.Remarks (s₁.setClause d { s₁.clause d with inFringe := true, fringeIndex := i }) c
      { (s.clause c).mark with inFringe := false } := by
  obtain ⟨hc, -, hv⟩ := (h.fringe_mem v c).mp (List.mem_of_getElem? hget)
  set k := { s₁.clause d with inFringe := true, fringeIndex := i }
  have hmem : d ≠ c ∧ d ∈ s.fringeOf v := by
    have hmoved := List.mem_of_getElem? hd
    rw [ht.fringeOf, if_pos rfl, mem_swapRemove h hget] at hmoved
    split_ifs at hmoved with hdc
    exact ⟨hdc, hmoved⟩
  obtain ⟨hdc, hdv⟩ := hmem
  obtain ⟨-, hdin, hdvol⟩ := (h.fringe_mem v d).mp hdv
  refine remarks_of_fringe h hc hv (ht.frame.trans (frame_setClause s₁ d k rfl rfl))
    (fun w hw => ?_) ht.unsatisfied (fun e => ?_) ?_ (fun w j e he => ?_) ?_ (fun e he => ?_)
  · rw [fringeOf_setClause, ht.fringeOf, if_neg hw]
  · rw [fringeOf_setClause, ht.fringeOf, if_pos rfl]
    exact mem_swapRemove h hget e
  · rw [fringeOf_setClause]
    exact ht.nodup h hget
  · rw [fringeOf_setClause] at he
    by_cases hed : e = d
    · rw [hed, setClause_same]
      rw [hed] at he
      have hw : w = v := by
        by_contra hw
        rw [ht.fringeOf, if_neg hw] at he
        exact hw (((h.fringe_mem w d).mp (List.mem_of_getElem? he)).2.2.symm.trans hdvol)
      subst hw
      exact (List.getElem?_inj (List.getElem?_eq_some_iff.mp hd).1 (ht.nodup h hget)).mp
        (hd.trans he.symm)
    · rw [setClause_ne _ _ hed]
      refine ht.fringeIndex h hget he ?_
      rintro rfl rfl
      exact hed (Option.some.inj (he.symm.trans hd))
  · rw [setClause_ne _ _ hdc.symm, ht.self]
    rfl
  · by_cases hed : e = d
    · subst hed
      rw [setClause_same]
      simp only [k, Clause.mark, ht.others _ he, hdin]
    · rw [setClause_ne _ _ hed, ht.others e he]

end

end TakenOut

theorem remarks_fringeRemove (h : s.Containers) (hc : c ∈ s.clauses)
    (hin : (s.clause c).inFringe = true) :
    ∃ s', s.fringeRemove (s.clause c).isVolatile c = .ok s' ∧
      s.Remarks s' c { (s.clause c).mark with inFringe := false } := by
  set v := (s.clause c).isVolatile with hv
  set i := (s.clause c).fringeIndex with hi
  obtain ⟨j, hj, hget⟩ := List.mem_iff_getElem.mp ((h.fringe_mem v c).mpr ⟨hc, hin, hv.symm⟩)
  obtain rfl : i = j := by
    rw [hi]
    exact h.fringe_index v j c (by rw [List.getElem?_eq_getElem hj, hget])
  have hget? : (s.fringeOf v)[i]? = some c := by rw [List.getElem?_eq_getElem hj, hget]
  have ht := takenOut_takeFromFringe s c v i
  unfold fringeRemove
  simp only [← hi]
  split_ifs with hlast
  · have hpop : s.fringePop v =
        some (c, (s.setFringe v (swapRemove (s.fringeOf v) i)).takeFromFringe c) := by
      have hgetLast : (s.fringeOf v).getLast? = some c := by
        rw [List.getLast?_eq_getElem?, ← hlast, Nat.add_sub_cancel, hget?]
      simp only [fringePop, hgetLast, Option.map_some, ← swapRemove_last hlast]
    rw [hpop]
    exact ⟨_, rfl, ht.remarks_last h hget? hlast⟩
  · have hlt := lt_length (l := s.fringeOf v) (i := i) (by omega)
    set s₁ := (s.setFringe v (swapRemove (s.fringeOf v) i)).takeFromFringe c
    have hmoved : (s₁.fringeOf v)[i]? = some (swapRemove (s.fringeOf v) i)[i] := by
      rw [ht.fringeOf, if_pos rfl, List.getElem?_eq_getElem hlt]
    rw [hmoved]
    exact ⟨_, rfl, ht.remarks_moved h hget? hmoved⟩

theorem remarks_removeFromFringe (h : s.Containers) (hc : c ∈ s.clauses) :
    ∃ s', s.removeFromFringe c = .ok s' ∧
      s.Remarks s' c { (s.clause c).mark with inFringe := false } := by
  unfold removeFromFringe
  split_ifs with hin
  · exact remarks_fringeRemove h hc hin
  · refine ⟨s, rfl, Frame.refl s, h, ?_, fun _ _ => rfl⟩
    simp [Clause.mark, hin]

theorem remarks_of_unsat {us : List ClauseId} {b : Bool} (h : s.Containers) (hc : c ∈ s.clauses)
    (hmem : ∀ d, d ∈ us ↔ if d = c then b = true else d ∈ s.unsatisfied) (hnodup : us.Nodup) :
    s.Remarks { s.setClause c { s.clause c with unsatisfied := b } with unsatisfied := us } c
      { (s.clause c).mark with unsatisfied := b } := by
  set k := { s.clause c with unsatisfied := b }
  set s' := { s.setClause c k with unsatisfied := us }
  have hclause (d : ClauseId) : s'.clause d = if d = c then k else s.clause d := by
    split_ifs with hd
    · subst hd
      exact setClause_same s d k
    · exact setClause_ne s k hd
  have hfr (v : Bool) : s'.fringeOf v = s.fringeOf v := rfl
  have hframe : s.Frame s' := by
    have := frame_setClause s c k rfl rfl
    exact ⟨⟨⟨fun _ _ => rfl, rfl, rfl, rfl, rfl, rfl, this.core⟩, rfl⟩, rfl, this.supports⟩
  refine ⟨hframe, ⟨fun v d => ?_, h.fringe_nodup, fun v i d hd => ?_, fun d => ?_, hnodup⟩, ?_,
    fun d hd => ?_⟩
  · rw [hfr, h.fringe_mem, hclause]
    split_ifs with hd
    · subst hd
      rfl
    · rfl
  · rw [hclause]
    split_ifs with hdc
    · subst hdc
      exact h.fringe_index v i d hd
    · exact h.fringe_index v i d hd
  · rw [hmem, hclause]
    split_ifs with hd
    · subst hd
      simp [s', setClause, hc, k]
    · exact h.unsat_mem d
  · rw [hclause, if_pos rfl]
    rfl
  · rw [hclause, if_neg hd]

theorem remarks_insertIntoUnsat (h : s.Containers) (hc : c ∈ s.clauses) :
    s.Remarks (s.insertIntoUnsat c) c { (s.clause c).mark with unsatisfied := true } := by
  unfold insertIntoUnsat
  split_ifs with hu
  · refine ⟨Frame.refl s, h, ?_, fun _ _ => rfl⟩
    simp [Clause.mark, hu]
  · have hnot : c ∉ s.unsatisfied := fun hm => hu ((h.unsat_mem c).mp hm).2
    refine remarks_of_unsat h hc (fun d => ?_) ?_
    · rw [List.mem_append, List.mem_singleton]
      split_ifs with hd <;> simp [hd]
    · simpa using h.unsat_nodup.concat hnot

theorem remarks_removeFromUnsat (h : s.Containers) (hc : c ∈ s.clauses) :
    ∃ s', s.removeFromUnsat c = .ok s' ∧
      s.Remarks s' c { (s.clause c).mark with unsatisfied := false } := by
  unfold removeFromUnsat
  split_ifs with hu
  · obtain ⟨i, hi⟩ := Option.isSome_iff_exists.mp
      (List.isSome_idxOf?.mpr ((h.unsat_mem c).mpr ⟨hc, hu⟩))
    obtain ⟨hlt, hget, -⟩ := List.idxOf?_eq_some_iff.mp hi
    rw [hi]
    refine ⟨_, rfl, remarks_of_unsat h hc (fun d => ?_) (nodup hlt h.unsat_nodup)⟩
    rw [mem_iff hlt h.unsat_nodup, hget]
    split_ifs with hd <;> simp [hd]
  · refine ⟨s, rfl, Frame.refl s, h, ?_, fun _ _ => rfl⟩
    simp [Clause.mark, hu]

theorem remarks_incrNumUnassigned (h : s.Containers)
    (hlt : (s.clause c).numUnassigned < (s.clause c).numLits) :
    ∃ s', s.incrNumUnassigned c = .ok s' ∧ s.Remarks s' c
      { (s.clause c).mark with numUnassigned := lengthT ((s.clause c).numUnassigned + 1) } := by
  refine ⟨_, by simp only [incrNumUnassigned, Clause.incrNumUnassigned, if_pos hlt]; rfl, ?_⟩
  exact remarks_setClause h rfl rfl rfl rfl rfl

theorem remarks_decrNumUnassigned (h : s.Containers) (hpos : 0 < (s.clause c).numUnassigned) :
    ∃ s', s.decrNumUnassigned c = .ok s' ∧ s.Remarks s' c
      { (s.clause c).mark with numUnassigned := lengthT ((s.clause c).numUnassigned - 1) } := by
  refine ⟨_, by simp only [decrNumUnassigned, Clause.decrNumUnassigned, if_pos hpos]; rfl, ?_⟩
  exact remarks_setClause h rfl rfl rfl rfl rfl

end Livingstone.Ltms
