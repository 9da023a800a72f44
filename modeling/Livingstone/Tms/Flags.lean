import Livingstone.Tms.Stuck
import Livingstone.Tms.Transfer

/-! No operation but those of batch destruction marks an object or takes a mark away. -/

namespace Livingstone.Ltms

open Loop

-- the wrap of a counter is never computed here
attribute [local irreducible] lengthT

variable {s s' : Ltms} {c : ClauseId} {p : PropId} {b : Bool}

/-- The same objects are marked for destruction, and the clauses have the same data. -/
structure SameFlags (s s' : Ltms) : Prop where
  prop : ∀ p, (s'.prop p).destroying = (s.prop p).destroying
  clause : ∀ c, (s'.clause c).destroying = (s.clause c).destroying
  datum : ∀ c, (s'.clause c).datum = (s.clause c).datum
  clauses : s'.clauses = s.clauses

namespace SameFlags

theorem refl (s : Ltms) : s.SameFlags s := ⟨fun _ => rfl, fun _ => rfl, fun _ => rfl, rfl⟩

theorem trans {s'' : Ltms} (h : s.SameFlags s') (h' : s'.SameFlags s'') : s.SameFlags s'' :=
  ⟨fun p => (h'.prop p).trans (h.prop p), fun c => (h'.clause c).trans (h.clause c),
    fun c => (h'.datum c).trans (h.datum c), h'.clauses.trans h.clauses⟩

theorem of_skeleton (h : s.Skeleton s') : s.SameFlags s' :=
  ⟨fun p => by rw [h.prop], h.field Clause.destroying fun _ => rfl,
    h.field Clause.datum fun _ => rfl, h.clauses⟩

theorem setClause {k : Clause} (hk : k.destroying = (s.clause c).destroying)
    (hdatum : k.datum = (s.clause c).datum) : s.SameFlags (s.setClause c k) := by
  refine ⟨fun _ => rfl, fun d => ?_, fun d => ?_, rfl⟩
  · by_cases hd : d = c
    · subst hd
      rw [setClause_same]
      exact hk
    · rw [setClause_ne s k hd]
  · by_cases hd : d = c
    · subst hd
      rw [setClause_same]
      exact hdatum
    · rw [setClause_ne s k hd]

theorem setValue (s : Ltms) (p : PropId) (tv : TruthValue) (sup : Option ClauseId) :
    s.SameFlags (s.setValue p tv sup) := by
  refine ⟨fun q => ?_, fun _ => rfl, fun _ => rfl, rfl⟩
  by_cases hq : q = p
  · simp [Ltms.setValue, setProp, hq]
  · simp [Ltms.setValue, setProp, hq]

theorem addOccurrence (s : Ltms) (c : ClauseId) (l : UnitProp.Literal PropId) :
    s.SameFlags (s.addOccurrence c l) := by
  refine ⟨fun q => ?_, fun _ => rfl, fun _ => rfl, rfl⟩
  by_cases hq : q = l.1
  · subst hq
    cases h : l.2 <;> simp [Ltms.addOccurrence, setProp, h]
  · simp [Ltms.addOccurrence, setProp, hq]

theorem removeOccurrence (s : Ltms) (c : ClauseId) (l : UnitProp.Literal PropId) :
    s.SameFlags (s.removeOccurrence c l) := by
  refine ⟨fun q => ?_, fun _ => rfl, fun _ => rfl, rfl⟩
  by_cases hq : q = l.1
  · subst hq
    cases h : l.2 <;> simp [Ltms.removeOccurrence, setProp, h]
  · simp [Ltms.removeOccurrence, setProp, hq]

theorem loop {α : Type} {body : Ltms → α → Except L2Error Ltms} {cs : List α}
    (hbody : ∀ s c s', body s c = .ok s' → s.SameFlags s') (hs : cs.foldlM body s = .ok s') :
    s.SameFlags s' :=
  foldlM_inv (s.SameFlags ·) cs (fun c _ t t' h ht => h.trans (hbody t c t' ht)) (refl s) hs

theorem unassignOpposite (h : unassignOpposite s c = .ok s') : s.SameFlags s' := by
  unfold Ltms.unassignOpposite at h
  split_ifs at h
  · exact Except.ok.inj h ▸ refl s
  · obtain ⟨s₁, h₁, h⟩ := bind_eq_ok h
    have hf := of_skeleton (frame_incrNumUnassigned h₁).toSkeleton
    split_ifs at h
    · obtain ⟨s₂, h₂, h⟩ := bind_eq_ok h
      have hf₂ := (frame_removeFromUnsat h₂).trans (frame_insertIntoFringe s₂ c)
      exact Except.ok.inj h ▸ hf.trans (of_skeleton hf₂.toSkeleton)
    · exact hf.trans (of_skeleton (frame_removeFromFringe h).toSkeleton)
    · split at h
      · rename_i q hq
        rw [setSupports_none] at h
        exact Except.ok.inj h ▸ hf.trans (of_skeleton (skeleton_dropSupport s₁ c q))
      · exact Except.ok.inj h ▸ hf

theorem assign (h : s.assign p b c = .ok s') : s.SameFlags s' := by
  obtain ⟨s₁, h₁, h₂⟩ := bind_eq_ok
    (show (assignUpdateSameSense (s.setValue p (truth b) (some c)) p b >>=
      fun s => assignUpdateOppositeSense s p b) = .ok s' from h)
  refine ((setValue s p _ _).trans (loop ?_ h₁)).trans (loop ?_ h₂)
  · exact fun _ _ _ h => of_skeleton (frame_assignSame h).toSkeleton
  · exact fun _ _ _ h => of_skeleton (frame_assignOpposite h).toSkeleton

theorem unassign (h : s.unassign p = .ok s') : s.SameFlags s' := by
  unfold Ltms.unassign at h
  split_ifs at h
  · exact Except.ok.inj h ▸ refl s
  · obtain ⟨s₁, h₁, h₂⟩ := bind_eq_ok h
    refine ((setValue s p .unknown none).trans (loop ?_ h₁)).trans (loop ?_ h₂)
    · exact fun _ _ _ h => of_skeleton (frame_unassignSame h).toSkeleton
    · exact fun _ _ _ h => unassignOpposite h

theorem undoPropagations (h : s.undoPropagations = .ok s') : s.SameFlags s' := by
  refine whileM_inv _ _ (s.SameFlags ·) (s.SameFlags ·) ?_ ?_ (refl s) h
  · intro t t' ht hb
    unfold undoTurn at hb
    split at hb
    · cases hb
    · rename_i q rest hu
      obtain ⟨s₁, h₁, hb⟩ := bind_eq_ok hb
      obtain rfl := Sum.inl.inj (Except.ok.inj hb)
      have hrest : t.SameFlags { t with undoList := rest } :=
        ⟨fun _ => rfl, fun _ => rfl, fun _ => rfl, rfl⟩
      exact (ht.trans hrest).trans (unassign h₁)
  · intro t r ht hb
    unfold undoTurn at hb
    split at hb
    · obtain rfl := Sum.inr.inj (Except.ok.inj hb)
      exact ht
    · obtain ⟨s₁, h₁, hb⟩ := bind_eq_ok hb
      cases hb

theorem setSupports {r : Option PropId} (h : s.setSupports c r = .ok s') : s.SameFlags s' := by
  obtain ⟨k, hk, h⟩ := bind_eq_ok h
  obtain rfl := Except.ok.inj h
  have hkept : k.destroying = (s.clause c).destroying ∧ k.datum = (s.clause c).datum := by
    cases r with
    | none =>
      obtain rfl := Except.ok.inj hk
      exact ⟨rfl, rfl⟩
    | some q =>
      simp only [Clause.setSupports] at hk
      split at hk
      · obtain rfl := Except.ok.inj hk
        exact ⟨rfl, rfl⟩
      · cases hk
  exact setClause hkept.1 hkept.2

theorem add (h : s.add c = .ok s') : s.SameFlags s' := by
  unfold Ltms.add at h
  split_ifs at h with hdel
  · obtain ⟨s₁, h₁, h⟩ := bind_eq_ok h
    have h₀ : s.SameFlags (s.ptheoryAdd c) := by
      simp only [ptheoryAdd, hdel, if_true]
      exact setClause rfl rfl
    have hf := (h₀.trans (setSupports h₁)).trans
      (setClause (c := c) (k := { s₁.clause c with unsatisfied := false }) rfl rfl)
    simp only at h
    split_ifs at h
    · exact Except.ok.inj h ▸ hf.trans (of_skeleton (frame_insertIntoFringe _ c).toSkeleton)
    · exact Except.ok.inj h ▸ hf.trans (of_skeleton (frame_insertIntoUnsat _ c).toSkeleton)
    · exact Except.ok.inj h ▸ hf
    · exact Except.ok.inj h ▸ hf
  · exact Except.ok.inj h ▸ refl s

theorem remove (h : s.remove c = .ok s') : s.SameFlags s' := by
  unfold Ltms.remove at h
  split_ifs at h
  · exact Except.ok.inj h ▸ refl s
  · have h₀ : s.SameFlags (s.ptheoryRemove c) := setClause rfl rfl
    simp only at h
    split_ifs at h
    · exact h₀.trans (of_skeleton (frame_removeFromFringe h).toSkeleton)
    · exact h₀.trans (of_skeleton (frame_removeFromUnsat h).toSkeleton)
    · split at h
      · rename_i q hq
        obtain ⟨s₁, h₁, h⟩ := bind_eq_ok h
        rw [setSupports_none] at h₁
        obtain rfl := Except.ok.inj h₁
        have hsk := skeleton_dropSupport (s.ptheoryRemove c) c q
        exact (h₀.trans (of_skeleton hsk)).trans (undoPropagations h)
      · exact Except.ok.inj h ▸ h₀

theorem propagate {r : Bool × Ltms} (h : s.propagate = .ok r) : s.SameFlags r.2 := by
  refine whileM_inv _ _ (s.SameFlags ·) (fun r => s.SameFlags r.2) ?_ ?_ (refl s) h
  · intro t t' ht hb
    unfold propagateTurn at hb
    split_ifs at hb
    · cases hb
    · split at hb
      · cases hb
      · rename_i c s₁ hx
        obtain ⟨⟨q, b⟩, hl, hb⟩ := bind_eq_ok hb
        obtain ⟨s₂, h₂, hb⟩ := bind_eq_ok hb
        obtain ⟨s₃, h₃, hb⟩ := bind_eq_ok hb
        obtain rfl := Sum.inl.inj (Except.ok.inj hb)
        have h₁ := of_skeleton (frame_getFringeClause hx).toSkeleton
        exact ((ht.trans h₁).trans (assign h₂)).trans (setSupports h₃)
  · intro t r ht hb
    unfold propagateTurn at hb
    split_ifs at hb
    · obtain rfl := Sum.inr.inj (Except.ok.inj hb)
      exact ht
    · split at hb
      · obtain rfl := Sum.inr.inj (Except.ok.inj hb)
        exact ht
      · obtain ⟨l, hl, hb⟩ := bind_eq_ok hb
        obtain ⟨s₂, h₂, hb⟩ := bind_eq_ok hb
        obtain ⟨s₃, h₃, hb⟩ := bind_eq_ok hb
        cases hb

theorem transferLiteral {old new : PropId} {losing sign : Bool} {i : ℕ}
    (h : transferLiteral old new losing sign c s i = .ok s') : s.SameFlags s' := by
  unfold Ltms.transferLiteral at h
  simp only at h
  split_ifs at h
  · have h₁ := ((setClause (s := s) (c := c)
      (k := { s.clause c with literals := (s.clause c).literals.set i new }) rfl rfl).trans
      (addOccurrence _ c (new, sign))).trans (removeOccurrence _ c (old, sign))
    exact h₁.trans (of_skeleton (frame_incrNumUnassigned h).toSkeleton)
  · exact Except.ok.inj h ▸ ((setClause (s := s) (c := c)
      (k := { s.clause c with literals := (s.clause c).literals.set i new }) rfl rfl).trans
      (addOccurrence _ c (new, sign))).trans (removeOccurrence _ c (old, sign))
  · exact Except.ok.inj h ▸ refl s

theorem transferClauses {old new : PropId} {losing : Bool} {moved : List ClauseId}
    (h : s.transferClauses old new moved losing = .ok s') : s.SameFlags s' := by
  refine loop (fun t c t' ht => ?_) h
  unfold transferClause at ht
  obtain ⟨s₁, h₁, ht⟩ := bind_eq_ok ht
  obtain ⟨s₂, h₂, ht⟩ := bind_eq_ok ht
  have hf := (loop (fun _ _ _ h => transferLiteral h) h₁).trans
    (loop (fun _ _ _ h => transferLiteral h) h₂)
  split_ifs at ht
  · exact Except.ok.inj ht ▸ hf.trans (of_skeleton (frame_setSatisfyingProp s₂ c _).toSkeleton)
  · exact Except.ok.inj ht ▸ hf

theorem moveSupport {old new : PropId} {moved : List ClauseId}
    (h : s.moveSupport old moved new = .ok s') : s.SameFlags s' := by
  unfold Ltms.moveSupport at h
  split at h
  · exact transferClauses h
  · split_ifs at h
    · obtain ⟨s₁, h₁, h⟩ := bind_eq_ok h
      obtain ⟨s₂, h₂, h⟩ := bind_eq_ok h
      obtain ⟨s₃, h₃, h⟩ := bind_eq_ok h
      exact (((assign h₁).trans (transferClauses h₂)).trans (unassign h₃)).trans
        (undoPropagations h)
    · exact transferClauses h

theorem lastConflict {predicate : ClauseId → Bool} {r : List ClauseId × Ltms}
    (h : s.lastConflict predicate = .ok r) : s.SameFlags r.2 := by
  have hr := restamped_lastConflict h
  refine ⟨fun p => by rw [show r.2.prop = s.prop from congrArg (·.prop) hr.rest], ?_, ?_, ?_⟩
  · exact hr.field Clause.destroying fun _ _ => rfl
  · exact hr.field Clause.datum fun _ _ => rfl
  · exact hr.clauses

end SameFlags

def Unmarked (s : Ltms) : Prop :=
  (∀ p, (s.prop p).destroying = false) ∧ ∀ c ∈ s.clauses, (s.clause c).destroying = false

theorem Unmarked.same (h : s.Unmarked) (hf : s.SameFlags s') : s'.Unmarked :=
  ⟨fun p => (hf.prop p).trans (h.1 p),
    fun c hc => (hf.clause c).trans (h.2 c (hf.clauses ▸ hc))⟩

theorem Unmarked.createProposition (h : s.Unmarked) : s.createProposition.2.Unmarked := by
  refine ⟨fun p => ?_, h.2⟩
  by_cases hp : p = s.nextProp
  · simp [Ltms.createProposition, hp]
  · simp [Ltms.createProposition, hp, h.1 p]

theorem SameFlags.foldl_addOccurrence (ls : List (UnitProp.Literal PropId)) (s : Ltms)
    (c : ClauseId) : s.SameFlags (ls.foldl (fun s l => s.addOccurrence c l) s) := by
  induction ls generalizing s with
  | nil => exact refl s
  | cons l ls ih => exact (addOccurrence s c l).trans (ih _)

theorem Unmarked.newClause (h : s.Unmarked) (datum : Option ℕ) {pos neg : List PropId} (v : Bool)
    (hfit : Fits pos neg) : (s.newClause datum pos neg v).2.Unmarked := by
  have hc := newClause_created (s := s) datum v hfit
  refine ⟨fun p => ?_, fun c hm => ?_⟩
  · have hf := SameFlags.foldl_addOccurrence (Clause.construct datum pos neg v).lits
      { s.setClause s.nextClause (Clause.construct datum pos neg v) with
        nextClause := s.nextClause + 1 } s.nextClause
    exact (hf.prop p).trans (h.1 p)
  · by_cases hn : c = s.nextClause
    · rw [hn, hc.new]
      rfl
    · rw [hc.old c hn]
      exact h.2 c ((hc.mem_clauses.mp hm).resolve_right hn)

theorem Unmarked.apply {op : Op} (h : s.Unmarked) (hv : s.Valid op) (hs : s.apply op = .ok s') :
    s'.Unmarked := by
  cases op with
  | createProposition => exact Except.ok.inj hs ▸ h.createProposition
  | createClause datum pos neg v inTheory =>
    obtain ⟨r, hr, hs⟩ := bind_eq_ok hs
    obtain rfl := Except.ok.inj hs
    have h₀ := h.newClause datum v hv.1
    unfold Ltms.createClause at hr
    simp only at hr
    split_ifs at hr
    · obtain ⟨s₁, h₁, hr⟩ := bind_eq_ok hr
      exact Except.ok.inj hr ▸ h₀.same (SameFlags.add h₁)
    · exact Except.ok.inj hr ▸ h₀
  | add c => exact h.same (SameFlags.add hs)
  | remove c => exact h.same (SameFlags.remove hs)
  | propagate =>
    obtain ⟨r, hr, hs⟩ := bind_eq_ok hs
    exact Except.ok.inj hs ▸ h.same (SameFlags.propagate hr)
  | lastConflict predicate =>
    obtain ⟨r, hr, hs⟩ := bind_eq_ok hs
    exact Except.ok.inj hs ▸ h.same (SameFlags.lastConflict hr)

end Livingstone.Ltms
