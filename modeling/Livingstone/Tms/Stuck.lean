import Livingstone.Tms.Run

/-! A deduction without a support link is never retracted: a proposition is
unassigned only after the clause that supports it gave up its link. -/

namespace Livingstone.Ltms

open Loop

-- the wrap of a counter is never computed here
attribute [local irreducible] lengthT

variable {s s' : Ltms} {c : ClauseId} {p q : PropId} {b : Bool}

/-- `p` has a value and no clause supports it. The first two fields keep the index of
a support link in range and the loops within the clauses. -/
structure Stuck (p : PropId) (s : Ltms) : Prop where
  bound : ∀ c ∈ s.clauses, (s.clause c).literals.length ≤ 127
  occurs : ∀ q b, ∀ c ∈ s.occurrences q b, c ∈ s.clauses
  known : s.value p ≠ .unknown
  alloc : p < s.nextProp
  unlinked : ∀ c ∈ s.clauses, (s.clause c).getSupports ≠ some p
  notWaiting : p ∉ s.undoList

theorem Stuck.frame (h : s.Stuck p) (hf : s.Frame s') : s'.Stuck p := by
  refine ⟨?_, ?_, ?_, ?_, ?_, ?_⟩
  · intro c hc
    rw [hf.literals]
    exact h.bound c (hf.clauses ▸ hc)
  · intro q b c hc
    rw [hf.clauses]
    exact h.occurs q b c (hf.occurrences q b ▸ hc)
  · rw [hf.value]
    exact h.known
  · rw [hf.nextProp]
    exact h.alloc
  · intro c hc
    rw [hf.getSupports]
    exact h.unlinked c (hf.clauses ▸ hc)
  · rw [hf.undoList]
    exact h.notWaiting

theorem frame_fringePush (s : Ltms) (v : Bool) (c : ClauseId) : s.Frame (s.fringePush v c) :=
  (frame_setClause s c
    { s.clause c with inFringe := true, fringeIndex := (s.fringeOf v).length } rfl rfl).trans
    (frame_setFringe _ v _)

theorem frame_setSatisfyingProp (s : Ltms) (c : ClauseId) (p : Option PropId) :
    s.Frame (s.setSatisfyingProp c p) := frame_setClause s c _ rfl rfl

theorem frame_insertIntoFringe (s : Ltms) (c : ClauseId) : s.Frame (s.insertIntoFringe c) := by
  unfold insertIntoFringe
  split_ifs
  · exact Frame.refl s
  · exact frame_fringePush s _ c

theorem frame_takeFromFringe (s : Ltms) (c : ClauseId) : s.Frame (s.takeFromFringe c) :=
  frame_setClause s c _ rfl rfl

theorem frame_fringePop {v : Bool} (h : s.fringePop v = some (c, s')) : s.Frame s' := by
  simp only [fringePop, Option.map_eq_some_iff, Prod.mk.injEq] at h
  obtain ⟨d, -, -, rfl⟩ := h
  exact (frame_setFringe s v _).trans (frame_takeFromFringe _ d)

theorem frame_getFringeClause (h : s.getFringeClause = some (c, s')) : s.Frame s' := by
  unfold getFringeClause at h
  split_ifs at h
  · exact frame_fringePop h
  · exact frame_fringePop h

theorem frame_fringeRemove {v : Bool} (h : s.fringeRemove v c = .ok s') : s.Frame s' := by
  simp only [fringeRemove] at h
  split_ifs at h
  · split at h
    · rename_i hpop
      exact Except.ok.inj h ▸ frame_fringePop hpop
    · cases h
  · split at h
    · exact Except.ok.inj h ▸ ((frame_setFringe s v _).trans (frame_takeFromFringe _ c)).trans
        (frame_setClause _ _ _ rfl rfl)
    · cases h

theorem frame_removeFromFringe (h : s.removeFromFringe c = .ok s') : s.Frame s' := by
  unfold removeFromFringe at h
  split_ifs at h
  · exact frame_fringeRemove h
  · exact Except.ok.inj h ▸ Frame.refl s

theorem frame_setUnsatisfied (s : Ltms) (c : ClauseId) (b : Bool) (us : List ClauseId) :
    s.Frame { s.setClause c { s.clause c with unsatisfied := b } with unsatisfied := us } := by
  have := frame_setClause s c { s.clause c with unsatisfied := b } rfl rfl
  exact ⟨⟨⟨fun _ _ => rfl, rfl, rfl, rfl, rfl, rfl, this.core⟩, rfl⟩, rfl, this.supports⟩

theorem frame_insertIntoUnsat (s : Ltms) (c : ClauseId) : s.Frame (s.insertIntoUnsat c) := by
  unfold insertIntoUnsat
  split_ifs
  · exact Frame.refl s
  · exact frame_setUnsatisfied s c true _

theorem frame_removeFromUnsat (h : s.removeFromUnsat c = .ok s') : s.Frame s' := by
  unfold removeFromUnsat at h
  split_ifs at h
  · split at h
    · exact Except.ok.inj h ▸ frame_setUnsatisfied s c false _
    · cases h
  · exact Except.ok.inj h ▸ Frame.refl s

theorem frame_incrNumUnassigned (h : s.incrNumUnassigned c = .ok s') : s.Frame s' := by
  obtain ⟨k, hk, h⟩ := bind_eq_ok h
  unfold Clause.incrNumUnassigned at hk
  split_ifs at hk
  obtain rfl := Except.ok.inj hk
  exact Except.ok.inj h ▸ frame_setClause s c _ rfl rfl

theorem frame_decrNumUnassigned (h : s.decrNumUnassigned c = .ok s') : s.Frame s' := by
  obtain ⟨k, hk, h⟩ := bind_eq_ok h
  unfold Clause.decrNumUnassigned at hk
  split_ifs at hk
  obtain rfl := Except.ok.inj hk
  exact Except.ok.inj h ▸ frame_setClause s c _ rfl rfl

theorem frame_assignSame (h : assignSame q s c = .ok s') : s.Frame s' := by
  unfold assignSame at h
  split_ifs at h
  · exact Except.ok.inj h ▸ Frame.refl s
  · obtain ⟨s₁, h₁, h⟩ := bind_eq_ok h
    have hf := frame_decrNumUnassigned h₁
    split_ifs at h
    · exact (hf.trans (frame_setSatisfyingProp s₁ c _)).trans (frame_removeFromFringe h)
    · exact Except.ok.inj h ▸ hf

theorem frame_assignOpposite (h : assignOpposite s c = .ok s') : s.Frame s' := by
  unfold assignOpposite at h
  split_ifs at h
  · exact Except.ok.inj h ▸ Frame.refl s
  · obtain ⟨s₁, h₁, h⟩ := bind_eq_ok h
    have hf := frame_decrNumUnassigned h₁
    split_ifs at h
    · obtain ⟨s₂, h₂, h⟩ := bind_eq_ok h
      exact Except.ok.inj h ▸ (hf.trans (frame_removeFromFringe h₂)).trans (frame_insertIntoUnsat s₂ c)
    · exact Except.ok.inj h ▸ hf.trans (frame_insertIntoFringe s₁ c)
    · exact Except.ok.inj h ▸ hf
    · exact Except.ok.inj h ▸ hf

theorem frame_unassignSame (h : unassignSame q s c = .ok s') : s.Frame s' := by
  unfold unassignSame at h
  split_ifs at h
  · exact Except.ok.inj h ▸ Frame.refl s
  · obtain ⟨s₁, h₁, h⟩ := bind_eq_ok h
    have hf := frame_incrNumUnassigned h₁
    have hset := hf.trans
      (frame_setSatisfyingProp s₁ c (s₁.findSatisfyingProp (s₁.clause c)))
    simp only at h
    split_ifs at h
    · exact Except.ok.inj h ▸ hset.trans (frame_insertIntoFringe _ c)
    · exact Except.ok.inj h ▸ hset
    · exact Except.ok.inj h ▸ hf

theorem Stuck.dropSupport (h : s.Stuck p) (hq : q ≠ p) : (s.dropSupport c q).Stuck p := by
  refine ⟨?_, h.occurs, h.known, h.alloc, ?_, ?_⟩
  · intro d hd
    rw [(skeleton_dropSupport s c q).literals]
    exact h.bound d hd
  · intro d hd
    rw [getSupports_dropSupport]
    split_ifs
    · exact Option.some_ne_none p |>.symm
    · exact h.unlinked d hd
  · intro hm
    rcases List.mem_cons.mp hm with he | hm
    · exact hq he.symm
    · exact h.notWaiting hm

theorem Stuck.unassignOpposite (h : s.Stuck p) (hc : c ∈ s.clauses)
    (hs : unassignOpposite s c = .ok s') : s'.Stuck p ∧ s'.clauses = s.clauses := by
  unfold Ltms.unassignOpposite at hs
  split_ifs at hs
  · exact Except.ok.inj hs ▸ ⟨h, rfl⟩
  · obtain ⟨s₁, h₁, hs⟩ := bind_eq_ok hs
    have hf := frame_incrNumUnassigned h₁
    split_ifs at hs
    · obtain ⟨s₂, h₂, hs⟩ := bind_eq_ok hs
      have hf := (hf.trans (frame_removeFromUnsat h₂)).trans (frame_insertIntoFringe s₂ c)
      exact Except.ok.inj hs ▸ ⟨h.frame hf, hf.clauses⟩
    · have hf := hf.trans (frame_removeFromFringe hs)
      exact ⟨h.frame hf, hf.clauses⟩
    · have h := h.frame hf
      split at hs
      · rename_i q hq
        rw [setSupports_none] at hs
        refine Except.ok.inj hs ▸ ⟨h.dropSupport ?_, hf.clauses⟩
        rintro rfl
        exact h.unlinked c (hf.clauses ▸ hc) hq
      · exact Except.ok.inj hs ▸ ⟨h, hf.clauses⟩

theorem Stuck.loop {body : Ltms → ClauseId → Except L2Error Ltms} {cs : List ClauseId}
    (hbody : ∀ s c s', s.Stuck p → c ∈ s.clauses → body s c = .ok s' →
      s'.Stuck p ∧ s'.clauses = s.clauses)
    (h : s.Stuck p) (hcs : ∀ c ∈ cs, c ∈ s.clauses) (hs : cs.foldlM body s = .ok s') :
    s'.Stuck p := by
  refine (foldlM_inv (fun t : Ltms => t.Stuck p ∧ t.clauses = s.clauses) cs ?_ ⟨h, rfl⟩ hs).1
  intro c hc t t' ⟨ht, heq⟩ hb
  obtain ⟨ht', heq'⟩ := hbody t c t' ht (heq ▸ hcs c hc) hb
  exact ⟨ht', heq'.trans heq⟩

theorem Stuck.assign (h : s.Stuck p) (hs : s.assign q b c = .ok s') : s'.Stuck p := by
  have h₀ : (s.setValue q (truth b) (some c)).Stuck p := by
    refine ⟨h.bound, ?_, ?_, h.alloc, h.unlinked, h.notWaiting⟩
    · intro r x
      rw [(outline_setValue s q _ _).occurrences]
      exact h.occurs r x
    · rw [value_setValue]
      split_ifs
      · cases b <;> simp [truth]
      · exact h.known
  obtain ⟨s₁, h₁, h₂⟩ := bind_eq_ok
    (show (assignUpdateSameSense (s.setValue q (truth b) (some c)) q b >>=
      fun s => assignUpdateOppositeSense s q b) = .ok s' from hs)
  have h₁ := h₀.loop (fun _ _ _ h _ h' =>
    ⟨h.frame (frame_assignSame h'), (frame_assignSame h').clauses⟩) (h₀.occurs q b) h₁
  exact h₁.loop (fun _ _ _ h _ h' =>
    ⟨h.frame (frame_assignOpposite h'), (frame_assignOpposite h').clauses⟩) (h₁.occurs q !b) h₂

theorem Stuck.unassign (h : s.Stuck p) (hq : q ≠ p) (hs : s.unassign q = .ok s') : s'.Stuck p := by
  unfold Ltms.unassign at hs
  split_ifs at hs
  · exact Except.ok.inj hs ▸ h
  · have h₀ : (s.setValue q .unknown none).Stuck p := by
      refine ⟨h.bound, ?_, ?_, h.alloc, h.unlinked, h.notWaiting⟩
      · intro r x
        rw [(outline_setValue s q _ _).occurrences]
        exact h.occurs r x
      · rw [value_setValue, if_neg hq.symm]
        exact h.known
    obtain ⟨s₁, h₁, h₂⟩ := bind_eq_ok hs
    have h₁ := h₀.loop (fun _ _ _ h _ h' =>
      ⟨h.frame (frame_unassignSame h'), (frame_unassignSame h').clauses⟩) (h₀.occurs q _) h₁
    exact h₁.loop (fun _ _ _ h hc h' => h.unassignOpposite hc h') (h₁.occurs q _) h₂

theorem Stuck.undoPropagations (h : s.Stuck p) (hs : s.undoPropagations = .ok s') :
    s'.Stuck p := by
  refine whileM_inv _ _ (Stuck p) (Stuck p) ?_ ?_ h hs
  · intro s s' h hb
    unfold undoTurn at hb
    split at hb
    · cases hb
    · rename_i q rest hu
      obtain ⟨s₁, h₁, hb⟩ := bind_eq_ok hb
      obtain rfl := Sum.inl.inj (Except.ok.inj hb)
      have hq : q ≠ p := by
        rintro rfl
        exact h.notWaiting (by simp [hu])
      have hrest : Stuck p { s with undoList := rest } := by
        refine ⟨h.bound, h.occurs, h.known, h.alloc, h.unlinked, ?_⟩
        intro hm
        exact h.notWaiting (by simp [hu, show p ∈ rest from hm])
      exact hrest.unassign hq h₁
  · intro s r h hb
    unfold undoTurn at hb
    split at hb
    · obtain rfl := Sum.inr.inj (Except.ok.inj hb)
      exact h
    · obtain ⟨s₁, h₁, hb⟩ := bind_eq_ok hb
      cases hb

theorem Stuck.setClause (h : s.Stuck p) {k : Clause}
    (hl : c ∈ s.clauses → k.literals.length ≤ 127)
    (hg : c ∈ s.clauses → k.getSupports ≠ some p) : (s.setClause c k).Stuck p := by
  refine ⟨?_, h.occurs, h.known, h.alloc, ?_, h.notWaiting⟩
  · intro d hd
    by_cases hdc : d = c
    · subst hdc
      rw [setClause_same]
      exact hl hd
    · rw [setClause_ne s k hdc]
      exact h.bound d hd
  · intro d hd
    by_cases hdc : d = c
    · subst hdc
      rw [setClause_same]
      exact hg hd
    · rw [setClause_ne s k hdc]
      exact h.unlinked d hd

theorem Stuck.setSupports (h : s.Stuck p) {r : Option PropId} (hr : r ≠ some p)
    (hs : s.setSupports c r = .ok s') : s'.Stuck p := by
  obtain ⟨k, hk, hs⟩ := bind_eq_ok hs
  obtain rfl := Except.ok.inj hs
  cases r with
  | none =>
    obtain rfl := Except.ok.inj hk
    exact h.setClause (h.bound c) fun _ => by simp [Clause.getSupports]
  | some q =>
    simp only [Clause.setSupports] at hk
    split at hk
    · rename_i i hi
      obtain rfl := Except.ok.inj hk
      obtain ⟨hlt, hget, -⟩ := List.idxOf?_eq_some_iff.mp hi
      rw [List.length_take] at hlt
      rw [List.getElem_take] at hget
      have hlen : i < (s.clause c).literals.length := by omega
      refine h.setClause (c := c) (k := { s.clause c with supports := lengthT i }) (h.bound c) ?_
      intro hc
      have hb := h.bound c hc
      have hw : lengthT i = i := lengthT_of_le (by omega) (by omega)
      simp only [Clause.getSupports, hw, noProposition]
      rw [if_neg (by omega), Int.toNat_natCast, List.getElem?_eq_getElem hlen, hget]
      exact hr
    · cases hk

theorem Stuck.add (h : s.Stuck p) (hs : s.add c = .ok s') : s'.Stuck p := by
  unfold Ltms.add at hs
  split_ifs at hs with hdel
  · obtain ⟨s₁, h₁, hs⟩ := bind_eq_ok hs
    have h₀ : (s.ptheoryAdd c).Stuck p := by
      simp only [ptheoryAdd, hdel, if_true]
      exact h.setClause (h.bound c) (h.unlinked c)
    have h := h₀.setSupports (by simp) h₁
    have h := h.setClause (c := c) (k := { s₁.clause c with unsatisfied := false }) (h.bound c)
      (h.unlinked c)
    simp only at hs
    split_ifs at hs
    · exact Except.ok.inj hs ▸ h.frame (frame_insertIntoFringe _ c)
    · exact Except.ok.inj hs ▸ h.frame (frame_insertIntoUnsat _ c)
    · exact Except.ok.inj hs ▸ h
    · exact Except.ok.inj hs ▸ h
  · exact Except.ok.inj hs ▸ h

theorem Stuck.remove (h : s.Stuck p) (hc : c ∈ s.clauses) (hs : s.remove c = .ok s') : s'.Stuck p := by
  unfold Ltms.remove at hs
  split_ifs at hs with hdel
  · exact Except.ok.inj hs ▸ h
  · have h : (s.ptheoryRemove c).Stuck p := h.setClause (h.bound c) (h.unlinked c)
    simp only at hs
    split_ifs at hs
    · exact h.frame (frame_removeFromFringe hs)
    · exact h.frame (frame_removeFromUnsat hs)
    · split at hs
      · rename_i q hq
        obtain ⟨s₁, h₁, hs⟩ := bind_eq_ok hs
        rw [setSupports_none] at h₁
        obtain rfl := Except.ok.inj h₁
        refine (h.dropSupport ?_).undoPropagations hs
        rintro rfl
        exact h.unlinked c hc hq
      · exact Except.ok.inj hs ▸ h

theorem Stuck.newClause (h : s.Stuck p) (datum : Option ℕ) {pos neg : List PropId} (v : Bool)
    (hfit : Fits pos neg) : (s.newClause datum pos neg v).2.Stuck p := by
  have hc := newClause_created (s := s) datum v hfit
  have hmem {d : ClauseId} (hd : d ∈ (s.newClause datum pos neg v).2.clauses)
      (hne : d ≠ s.nextClause) : d ∈ s.clauses := (hc.mem_clauses.mp hd).resolve_right hne
  refine ⟨?_, ?_, ?_, ?_, ?_, ?_⟩
  · intro d hd
    by_cases hdc : d = s.nextClause
    · rw [hdc, hc.new]
      exact hfit
    · rw [hc.old d hdc]
      exact h.bound d (hmem hd hdc)
  · intro q b d hd
    rw [hc.occurrences, List.mem_append] at hd
    rw [hc.mem_clauses]
    rcases hd with hd | hd
    · exact Or.inl (h.occurs q b d hd)
    · split_ifs at hd
      · exact Or.inr (List.mem_singleton.mp hd)
      · cases hd
  · rw [hc.value]
    exact h.known
  · rw [hc.nextProp]
    exact h.alloc
  · intro d hd
    by_cases hdc : d = s.nextClause
    · rw [hdc, hc.new]
      simp [Clause.construct, Clause.getSupports]
    · rw [hc.old d hdc]
      exact h.unlinked d (hmem hd hdc)
  · rw [hc.undoList]
    exact h.notWaiting

theorem Stuck.createProposition (h : s.Stuck p) : s.createProposition.2.Stuck p := by
  have hold (q : PropId) (hq : q ≠ s.nextProp) : s.createProposition.2.prop q = s.prop q :=
    Function.update_of_ne hq _ s.prop
  have hnew : s.createProposition.2.prop s.nextProp = {} := Function.update_self _ _ s.prop
  refine ⟨h.bound, ?_, ?_, Nat.lt_succ_of_lt h.alloc, h.unlinked, h.notWaiting⟩
  · intro q b c hc
    by_cases hq : q = s.nextProp
    · simp [occurrences, hq, hnew] at hc
    · simp only [occurrences, hold q hq] at hc
      exact h.occurs q b c hc
  · simp only [value, hold p h.alloc.ne]
    exact h.known

theorem Stuck.popAssign (h : s.Stuck p) {x : ClauseId × Ltms} {l : UnitProp.Literal PropId}
    (hx : s.getFringeClause = some x) (hl : x.2.getUnassignedLiteral (x.2.clause x.1) = .ok l)
    (hs : x.2.assign l.1 l.2 x.1 = .ok s') : s'.Stuck p ∧ l.1 ≠ p := by
  have h₁ := h.frame (frame_getFringeClause hx)
  refine ⟨h₁.assign hs, ?_⟩
  rintro rfl
  unfold getUnassignedLiteral at hl
  split at hl
  · rename_i m hm
    obtain rfl := Except.ok.inj hl
    have := List.find?_some hm
    exact h₁.known (litVal_eq_none.mp (of_decide_eq_true this))
  · cases hl

theorem Stuck.propagate (h : s.Stuck p) {r : Bool × Ltms} (hs : s.propagate = .ok r) :
    r.2.Stuck p := by
  refine whileM_inv _ _ (Stuck p) (fun r => r.2.Stuck p) ?_ ?_ h hs
  · intro s s' h hb
    unfold propagateTurn at hb
    split_ifs at hb
    · cases hb
    · split at hb
      · cases hb
      · rename_i c s₁ hx
        obtain ⟨⟨q, b⟩, hl, hb⟩ := bind_eq_ok hb
        obtain ⟨s₂, h₂, hb⟩ := bind_eq_ok hb
        obtain ⟨s₃, h₃, hb⟩ := bind_eq_ok hb
        obtain rfl := Sum.inl.inj (Except.ok.inj hb)
        obtain ⟨h₂, hq⟩ := h.popAssign hx hl h₂
        exact h₂.setSupports (by simpa using hq) h₃
  · intro s r h hb
    unfold propagateTurn at hb
    split_ifs at hb
    · obtain rfl := Sum.inr.inj (Except.ok.inj hb)
      exact h
    · split at hb
      · obtain rfl := Sum.inr.inj (Except.ok.inj hb)
        exact h
      · obtain ⟨l, hl, hb⟩ := bind_eq_ok hb
        obtain ⟨s₂, h₂, hb⟩ := bind_eq_ok hb
        obtain ⟨s₃, h₃, hb⟩ := bind_eq_ok hb
        cases hb

theorem Stuck.partialPropagate (h : s.Stuck p) {n : ℕ} {r : Option Bool × Ltms}
    (hs : s.partialPropagate n = .ok r) : r.2.Stuck p := by
  induction n generalizing s with
  | zero =>
    unfold Ltms.partialPropagate at hs
    split_ifs at hs
    · exact Except.ok.inj hs ▸ h
    · exact Except.ok.inj hs ▸ h
  | succ n ih =>
    unfold Ltms.partialPropagate at hs
    split_ifs at hs
    · exact Except.ok.inj hs ▸ h
    · split at hs
      · exact Except.ok.inj hs ▸ h
      · rename_i c s₁ hx
        obtain ⟨l, hl, hs⟩ := bind_eq_ok hs
        obtain ⟨s₂, h₂, hs⟩ := bind_eq_ok hs
        exact ih (h.popAssign hx hl h₂).1 hs

theorem Stuck.restamped (h : s.Stuck p) (hr : s.Restamped s') : s'.Stuck p := by
  refine ⟨?_, ?_, ?_, ?_, ?_, ?_⟩
  · intro c hc
    rw [hr.field Clause.literals (fun _ _ => rfl) c]
    exact h.bound c (hr.clauses ▸ hc)
  · rw [show s'.occurrences = s.occurrences from congrArg (·.occurrences) hr.rest, hr.clauses]
    exact h.occurs
  · rw [hr.value]
    exact h.known
  · rw [show s'.nextProp = s.nextProp from congrArg (·.nextProp) hr.rest]
    exact h.alloc
  · intro c hc
    rw [hr.getSupports]
    exact h.unlinked c (hr.clauses ▸ hc)
  · rw [show s'.undoList = s.undoList from congrArg (·.undoList) hr.rest]
    exact h.notWaiting

theorem restamped_lastConflict {predicate : ClauseId → Bool} {r : List ClauseId × Ltms}
    (hs : s.lastConflict predicate = .ok r) : s.Restamped r.2 := by
  unfold lastConflict at hs
  split at hs
  · exact Except.ok.inj hs ▸ Restamped.refl s
  · obtain ⟨t, ht, hs⟩ := bind_eq_ok hs
    obtain rfl := Except.ok.inj hs
    have h₀ : s.Restamped s.freshStamp := by
      unfold freshStamp
      split_ifs
      · exact ⟨rfl, (restamped_initializeTimeStamps s).clause⟩
      · exact ⟨rfl, fun _ => rfl⟩
    have hprop {c : ClauseId} (t : Trace) (q : PropId) (t' : Trace) (h : s.Restamped t.ltms)
        (h' : traceProp predicate c t q = .ok t') : s.Restamped t'.ltms := by
      unfold traceProp at h'
      split at h'
      · cases h'
      · simp only at h'
        split_ifs at h'
        · exact Except.ok.inj h' ▸ h.trans (restamped_mark t _)
        · exact Except.ok.inj h' ▸ h.trans (restamped_mark t _)
        · exact Except.ok.inj h' ▸ h
    refine whileM_inv _ _ (fun t : Trace => s.Restamped t.ltms) (fun t => s.Restamped t.ltms)
      ?_ ?_ h₀ ht
    · intro t t' h hb
      unfold traceTurn at hb
      split at hb
      · cases hb
      · obtain ⟨t₁, h₁, hb⟩ := bind_eq_ok hb
        obtain rfl := Sum.inl.inj (Except.ok.inj hb)
        exact foldlM_inv (fun t : Trace => s.Restamped t.ltms) _
          (fun q _ t t' h h' => hprop t q t' h h') (by exact h) h₁
    · intro t r h hb
      unfold traceTurn at hb
      split at hb
      · obtain rfl := Sum.inr.inj (Except.ok.inj hb)
        exact h
      · obtain ⟨t₁, h₁, hb⟩ := bind_eq_ok hb
        cases hb

theorem Stuck.apply {op : Op} (h : s.Stuck p) (hv : s.Valid op) (hs : s.apply op = .ok s') :
    s'.Stuck p := by
  cases op with
  | createProposition => exact Except.ok.inj hs ▸ h.createProposition
  | createClause datum pos neg v inTheory =>
    obtain ⟨r, hr, hs⟩ := bind_eq_ok hs
    obtain rfl := Except.ok.inj hs
    have h₀ := h.newClause datum v hv.1
    unfold Ltms.createClause at hr
    simp only at hr
    split_ifs at hr
    · obtain ⟨s₁, h₁, hr⟩ := bind_eq_ok hr
      exact Except.ok.inj hr ▸ h₀.add h₁
    · exact Except.ok.inj hr ▸ h₀
  | add c => exact h.add hs
  | remove c => exact h.remove hv hs
  | propagate =>
    obtain ⟨r, hr, hs⟩ := bind_eq_ok hs
    exact Except.ok.inj hs ▸ h.propagate hr
  | lastConflict predicate =>
    obtain ⟨r, hr, hs⟩ := bind_eq_ok hs
    exact Except.ok.inj hs ▸ h.restamped (restamped_lastConflict hr)

end Livingstone.Ltms
