import Livingstone.Proofs.Closure
import Livingstone.Tms.Move

/-! `move_support`. When the old proposition has no support, or its supporter moves
too, the representation invariant is kept. Otherwise the moved clauses lose an
assignment and only their counters are updated. -/

namespace Livingstone.Ltms

open UnitProp (Literal Derives Contradicts)
open Function (update update_of_ne)

variable {s s' t : Ltms} {c : ClauseId} {old new : PropId} {moved : List ClauseId}

/-- Arguments of `move_support`: the clauses exist and `new` is unassigned and in none
of them. -/
structure Fresh (old : PropId) (moved : List ClauseId) (new : PropId) (s : Ltms) : Prop where
  ne : old ≠ new
  new_mem : new ∈ s.props
  unknown : s.value new = .unknown
  mem : ∀ c ∈ moved, c ∈ s.clauses
  notMem : ∀ c ∈ moved, ∀ b, (new, b) ∉ (s.clause c).lits

/-- The supporter of `old`, if there is one, moves too, or each moved clause stands the
loss of an assignment. -/
def Movable (old : PropId) (moved : List ClauseId) (s : Ltms) : Prop :=
  (∀ c, (s.prop old).supportedBy = some c → c ∈ moved) ∨
    ∀ c ∈ moved, Stands old (s.clause c)

theorem Fresh.transferable (hf : s.Fresh old moved new) (h : s.Inv) :
    s.Transferable old new moved := by
  refine ⟨hf.mem, fun c hc b _ hn => hf.notMem c hc b (Clause.mem_lits.mpr hn), fun c hc => ?_⟩
  have hcc := hf.mem c hc
  cases hdel : (s.clause c).deleted with
  | false => exact (h.marks.active c ⟨hcc, hdel⟩).count_nonneg
  | true => exact (h.marks.deleted c hcc hdel).nonneg

theorem move_unsupported (h : s.Inv) (hf : s.Fresh old moved new)
    (hn : (s.prop old).supportedBy = none) :
    ∃ s', s.transferClauses old new moved false = .ok s' ∧ s'.Inv := by
  obtain ⟨rank, hs⟩ := h.support
  have hv : s.value old = .unknown := (hs.unknown old).mpr hn
  obtain ⟨s', hs', ht⟩ := (transferClauses_returns false h.wf (hf.transferable h) hf.ne
    hf.new_mem).returns fun c _ hl => by cases hl
  have hvo : s.value new = s.value old := hf.unknown.trans hv.symm
  have hh : HandedOver old new moved s s' := by
    refine ⟨ht.clauses, ht.props, ht.undoList, ht.active, ht.lits, ht.getSupports, fun q => ?_,
      fun q => ?_⟩
    · rw [ht.value]
      split_ifs with hq
      · exact hq ▸ hvo
      · rfl
    · rw [ht.supportedBy]
      split_ifs with hq
      · rw [hq, hn]
        exact (hs.unknown new).mp hf.unknown
      · rfl
  obtain ⟨hs₁, -⟩ := hh.support hs h.undo hf.ne hf.unknown hf.new_mem
    fun c hc => by simp [hn] at hc
  refine ⟨s', hs', ht.wf, ht.containers h.containers, ht.marked hvo h.marks, ⟨_, { hs₁ with
    forth := fun p c hp _ => hs₁.forth p c hp ?_
    undo := fun p hp => ?_ }⟩, ht.undoList.trans h.undo, ht.stamps h.stamps⟩
  · rintro rfl
    simp [ht.supportedBy, hn] at hp
  · rw [ht.undoList, h.undo] at hp
    cases hp

theorem move_supporter (h : s.Inv) (hf : s.Fresh old moved new)
    (hc : (s.prop old).supportedBy = some c) (hmoved : c ∈ moved) :
    ∃ s', s.moveSupport old moved new = .ok s' ∧ s'.Inv := by
  obtain ⟨rank, hs⟩ := h.support
  have hv : s.value old ≠ .unknown := by
    rw [Ne, hs.unknown, hc]
    simp
  set b : Bool := decide (s.value old ≠ .pfalse) with hb
  have htruth : truth b = s.value old := by
    rw [hb]
    cases hval : s.value old
    · rfl
    · rfl
    · exact absurd hval hv
  -- the assignment of `new`
  obtain ⟨s₁, hs₁, hfr, hcon, hm⟩ := assign_spec (b := b) none h.wf h.containers
    (by simpa [Ltms.Marked] using h.marks) (fun d hd => by cases hd) hf.unknown c
  have ho : s.Outline s₁ := (outline_setValue s new _ _).trans hfr.toOutline
  have hval₁ (q : PropId) : s₁.value q = if q = new then s.value old else s.value q := by
    rw [hfr.value, value_setValue, htruth]
  have hinv₁ : s₁.Transferable old new moved := by
    have := hf.transferable h
    refine ⟨ho.clauses ▸ this.mem, fun d hd x => ?_, fun d hd => ?_⟩
    · rw [← Clause.mem_lits, ← Clause.mem_lits, ho.lits, Clause.mem_lits, Clause.mem_lits]
      exact this.fresh d hd x
    · have hdc : d ∈ s₁.clauses := ho.clauses ▸ this.mem d hd
      cases hdel : (s₁.clause d).deleted with
      | false => exact (hm.active d ⟨hdc, hdel⟩).count_nonneg
      | true => exact (hm.deleted d hdc hdel).nonneg
  -- the transfer
  obtain ⟨s₂, hs₂, ht⟩ := (transferClauses_returns false (ho.wellFormed h.wf) hinv₁
    hf.ne (ho.props ▸ hf.new_mem)).returns fun c _ hl => by cases hl
  have hh : HandedOver old new moved s s₂ := by
    refine ⟨ht.clauses.trans ho.clauses, ht.props.trans ho.props,
      ht.undoList.trans hfr.undoList, fun d => (ht.active d).trans (ho.active d), fun d => ?_,
      fun d => ?_, fun q => (ht.value q).trans (hval₁ q), fun q => ?_⟩
    · rw [ht.lits, ho.lits]
    · rw [ht.getSupports, hfr.getSupports]
      rfl
    · rw [ht.supportedBy, hfr.prop, supportedBy_setValue, hc]
  obtain ⟨hsup, hfree⟩ := hh.support hs h.undo hf.ne hf.unknown hf.new_mem
    fun d hd => Option.some.inj (hc.symm.trans hd) ▸ hmoved
  have hundo : s₂.undoList = [] := hh.undoList.trans h.undo
  have hwait : s₂.waiting = ∅ := by
    ext q
    simp [waiting, hundo]
  -- the retraction of `old`
  obtain ⟨s₃, hs₃, hsk, hcon₃, hm₃, hsup₃, -⟩ := unassign_spec (p := old) ht.wf
    (ht.containers hcon) (ht.marked (by rw [hval₁, hval₁, if_pos rfl, if_neg hf.ne]) hm)
    (by rw [hwait]; simpa using hsup) (by simp [hundo]) hfree
    (by rw [hh.value, if_neg hf.ne]; exact hv)
  have ho₃ : s₂.Outline s₃ := (outline_setValue s₂ old _ _).trans hsk.toOutline
  obtain ⟨s₄, hs₄, ho₄, hun, hundo₄⟩ :=
    undoPropagations_spec ⟨ho₃.wellFormed ht.wf, hcon₃, hm₃, hsup₃⟩
  refine ⟨s₄, ?_, hun.inv hundo₄ ((ho₃.trans ho₄).stamps (ht.stamps (ho.stamps h.stamps)))⟩
  unfold moveSupport
  simp only [hc, not_true, hmoved, if_false, bind, Except.bind]
  rw [← hb, hs₁]
  simp only [hs₂, hs₃, hs₄]

theorem exists_part {k : Clause} : (∃ b, old ∈ k.part b) ↔ ∃ b, (old, b) ∈ k.lits := by
  simp only [Clause.mem_lits]

theorem mark_lost {k : Clause} (h : ClauseShape k) : (respelled true old new k).mark =
    { k.mark with
      numUnassigned := k.mark.numUnassigned + (k.lits.countP fun l => l.1 = old : ℕ)
      satisfyingProp := k.mark.satisfyingProp.map (respell old new) } := by
  rw [countP_old h]
  rfl

theorem Stands.room (h : s.Inv) (hv : s.value old ≠ .unknown) (hc : c ∈ s.clauses)
    (hs : Stands old (s.clause c)) : Room true old (s.clause c) := by
  intro _ hold
  have hshape := h.wf.shape c hc
  rw [← countP_old hshape]
  have hs := hs (exists_part.mp hold)
  cases hdel : (s.clause c).deleted with
  | true => simpa [hdel] using hs
  | false =>
    have hcount : (s.clause c).numUnassigned = _ := (h.marks.active c ⟨hc, hdel⟩).count
    have hdisj (l : Literal PropId) : ¬ (s.litVal l = none ∧ l.1 = old) := by
      rintro ⟨hl, rfl⟩
      exact hv (litVal_eq_none.mp hl)
    have hle := List.countP_le_length (l := (s.clause c).lits)
      (p := fun l => decide (s.litVal l = none) || decide (l.1 = old))
    rw [countP_or hdisj, hshape.length_lits] at hle
    have := hshape.numLits
    omega

section
variable (h : s.Inv) (hf : s.Fresh old moved new) (hv : s.value old ≠ .unknown)
  (ht : Transferred true old new moved s s')
include h hf hv ht

/-- A moved clause in the theory has the right mark afterwards if and only if it could
stand the loss, support links apart. -/
theorem mark_lost_iff (ha : s.Active c) (hc : c ∈ moved) (hold : ∃ b, (old, b) ∈ (s.clause c).lits) :
    Bookkeeping s'.litVal (s'.clause c).lits (s'.clause c).mark ↔
      ((s.clause c).satisfyingProp = none ∧ 2 ≤ (s.clause c).numUnassigned) ∨
        ∃ q, q ≠ old ∧ (s.clause c).satisfyingProp = some q := by
  rw [ht.litVal, ht.clause, if_pos hc, lits_respelled, mark_lost (h.wf.shape c ha.1)]
  exact (h.marks.active c ha).lose_iff hold (fun b => mt litVal_eq_none.mp hv)
    fun b => litVal_eq_none.mpr hf.unknown

omit hf hv in
theorem moved_same (hc : c ∈ s.clauses) (hold : ¬ ∃ b, (old, b) ∈ (s.clause c).lits)
    (hsat : (s.clause c).satisfyingProp ≠ some old) : s'.clause c = s.clause c := by
  rw [ht.clause]
  split_ifs
  · refine respelled_of_notMem (h.wf.shape c hc) (fun b hb => hold ⟨b, ?_⟩) hsat
    exact Clause.mem_lits.mpr hb
  · rfl

theorem move_inv (hroom : ∀ c ∈ moved, Room true old (s.clause c))
    (hs : ∀ c ∈ moved, Stands old (s.clause c)) : s'.Inv := by
  obtain ⟨rank, hsup⟩ := h.support
  have hsat {d : ClauseId} (ha : s.Active d) (hold : ¬ ∃ b, (old, b) ∈ (s.clause d).lits) :
      (s.clause d).satisfyingProp ≠ some old := by
    intro he
    obtain ⟨b, hb, -⟩ := (h.marks.active d ha).sat old he
    exact hold ⟨b, hb⟩
  -- a clause that supports something is as before
  have hkeep {d : ClauseId} (hd : d ∈ s.clauses) {p : PropId}
      (hp : (s.clause d).getSupports = some p) : s'.clause d = s.clause d := by
    obtain ⟨ha, hsp⟩ := hsup.back d hd p hp
    by_cases hold : d ∈ moved ∧ ∃ b, (old, b) ∈ (s.clause d).lits
    · have hst := hs d hold.1 hold.2
      rw [ha.2, if_neg (by simp)] at hst
      rcases hst with hst | hst
      · have := Bookkeeping.support_none hsup hd (h.marks.active d ha) hst.1
        simp [this] at hp
      · simp [hst.2] at hp
    · by_cases hm : d ∈ moved
      · have hold : ¬ ∃ b, (old, b) ∈ (s.clause d).lits := fun hb => hold ⟨hm, hb⟩
        exact moved_same h ht hd hold (hsat ha hold)
      · rw [ht.clause, if_neg hm]
  have hgs {d : ClauseId} (hd : d ∈ s.clauses) :
      (s'.clause d).getSupports = (s.clause d).getSupports := by
    cases hp : (s.clause d).getSupports with
    | some p => rw [hkeep hd hp, hp]
    | none =>
      rw [ht.getSupports, hp]
      split_ifs <;> rfl
  refine ⟨ht.wf, ht.containers h.containers, ⟨fun d hd => ?_, fun d hd hdel => ?_⟩, ⟨rank, ?_⟩,
    ht.undoList.trans h.undo, ht.stamps h.stamps⟩
  · have ha := (ht.active d).mp hd
    by_cases hold : d ∈ moved ∧ ∃ b, (old, b) ∈ (s.clause d).lits
    · refine (mark_lost_iff h hf hv ht ha hold.1 hold.2).mpr ?_
      have hst := hs d hold.1 hold.2
      rw [ha.2, if_neg (by simp)] at hst
      exact hst.imp_right And.left
    · have hsame : s'.clause d = s.clause d := by
        by_cases hm : d ∈ moved
        · have hold : ¬ ∃ b, (old, b) ∈ (s.clause d).lits := fun hb => hold ⟨hm, hb⟩
          exact moved_same h ht ha.1 hold (hsat ha hold)
        · rw [ht.clause, if_neg hm]
      rw [hsame, ht.litVal]
      exact h.marks.active d ha
  · have hdel' : (s.clause d).deleted = true := by
      rw [← ht.field Clause.deleted (fun _ => rfl) d]
      exact hdel
    have hd' : d ∈ s.clauses := ht.clauses ▸ hd
    have hst := h.marks.deleted d hd' hdel'
    have hshape := h.wf.shape d hd'
    rw [ht.clause]
    split_ifs with hm
    · have h₁ := gain_nonneg true old true (s.clause d)
      have h₂ := gain_nonneg true old false (s.clause d)
      have h₃ : 0 ≤ (s.clause d).numUnassigned := hst.nonneg
      have h₄ : (s.clause d).numUnassigned ≤ 127 := hst.le
      refine ⟨?_, hst.inFringe, hst.unsatisfied, ?_, ?_⟩
      · rw [lits_respelled]
        exact sat_respell hst
      · change 0 ≤ (s.clause d).numUnassigned + _
        omega
      · change (s.clause d).numUnassigned + _ ≤ 127
        by_cases hold : ∃ b, old ∈ (s.clause d).part b
        · have := hroom d hm rfl hold
          have := hshape.numLits
          have := hshape.bound
          omega
        · rw [not_exists] at hold
          rw [gain_of_notMem (hold true), gain_of_notMem (hold false)]
          omega
    · exact hst
  · refine ⟨fun p => ?_, fun p hp => ?_, fun p d hp hn => ?_, fun d hd p hp => ?_,
      fun d hd p hp => ?_, ?_, fun p hp => ?_⟩
    · rw [ht.value, ht.supportedBy]
      exact hsup.unknown p
    · rw [ht.props]
      exact hsup.alloc p (ht.value p ▸ hp)
    · rw [ht.supportedBy] at hp
      obtain ⟨ha, hg⟩ := hsup.forth p d hp hn
      exact ⟨(ht.active d).mpr ha, (hgs ha.1).trans hg⟩
    · have hd : d ∈ s.clauses := ht.clauses ▸ hd
      rw [ht.active, ht.supportedBy]
      exact hsup.back d hd p ((hgs hd).symm.trans hp)
    · have hd : d ∈ s.clauses := ht.clauses ▸ hd
      have hp := (hgs hd).symm.trans hp
      rw [hkeep hd hp, ht.litVal]
      exact hsup.just d hd p hp
    · rw [ht.undoList, h.undo]
      exact List.nodup_nil
    · rw [ht.undoList, h.undo] at hp
      cases hp

/-- A moved clause that cannot stand the loss breaks the invariant. -/
theorem stands_of_move (hc : (∃ c, (s.prop old).supportedBy = some c ∧ c ∉ moved))
    (hroom : ∀ c ∈ moved, Room true old (s.clause c)) (hinv : s'.Inv) :
    ∀ c ∈ moved, Stands old (s.clause c) := by
  intro d hd hold
  have hdc := hf.mem d hd
  cases hdel : (s.clause d).deleted with
  | true =>
    rw [if_pos rfl, countP_old (h.wf.shape d hdc)]
    exact hroom d hd rfl (exists_part.mpr hold)
  | false =>
    have ha : s.Active d := ⟨hdc, hdel⟩
    have hmark := (mark_lost_iff h hf hv ht ha hd hold).mp
      (hinv.marks.active d ((ht.active d).mpr ha))
    rw [if_neg (by simp)]
    refine hmark.imp_right fun hq => ⟨hq, ?_⟩
    by_contra hne
    obtain ⟨p, hp⟩ := Option.ne_none_iff_exists'.mp hne
    obtain ⟨rank, hsup⟩ := h.support
    obtain ⟨rank', hsup'⟩ := hinv.support
    obtain ⟨-, hsp⟩ := hsup.back d hdc p hp
    have hpo : p ≠ old := by
      rintro rfl
      obtain ⟨c, hc, hm⟩ := hc
      exact hm (Option.some.inj (hc.symm.trans hsp) ▸ hd)
    have hpn : p ≠ new := by
      rintro rfl
      rw [(hsup.unknown p).mp hf.unknown] at hsp
      cases hsp
    have hp' : (s'.clause d).getSupports = some p := by
      rw [ht.getSupports, if_pos hd, hp, Option.map_some, respell_of_ne hpo]
    obtain ⟨b, -, -, hrest⟩ := hsup'.just d (ht.clauses ▸ hdc) p hp'
    obtain ⟨x, hx⟩ := hold
    -- the literal that was `old` has no value now
    have hnew : (new, x) ∈ (s'.clause d).lits := by
      rw [ht.lits, if_pos hd]
      refine List.mem_map.mpr ⟨(old, x), hx, ?_⟩
      simp [respellLit]
    have := (hrest _ hnew fun he => hpn (Prod.mk.inj he).1.symm).1
    rw [ht.litVal, litVal_eq_none.mpr hf.unknown] at this
    cases this

end

/-- The states reached by calls and by moves whose moved clauses take the supporter
along or stand the loss. -/
inductive MoveRun : Ltms → Prop
  | new : MoveRun {}
  | call {op : Op} {s s' : Ltms} (h : MoveRun s) (hv : s.Valid op) (hs : s.apply op = .ok s') :
      MoveRun s'
  | move {old new : PropId} {moved : List ClauseId} {s s' : Ltms} (h : MoveRun s)
      (hf : s.Fresh old moved new) (hm : s.Movable old moved)
      (hs : s.moveSupport old moved new = .ok s') : MoveRun s'

def Calls : Ltms → Ltms → Prop :=
  Relation.ReflTransGen fun s s' => ∃ op, s.Valid op ∧ s.apply op = .ok s'

/-- The representation invariant holds, and after any further calls propagation yields
the closure of the active clauses and finds every conflict, and a removal retracts
everything that the remaining clauses do not derive. -/
structure Restored (s : Ltms) : Prop where
  inv : s.Inv
  closure : ∀ t, Calls s t → ∃ b t', t.propagate = .ok (b, t') ∧
    (b = true → ∀ p, (t'.value p = .ptrue ↔ Derives t.theory (p, true)) ∧
      (t'.value p = .pfalse ↔ Derives t.theory (p, false))) ∧
    (b = false ↔ Contradicts t.theory)
  retraction : ∀ t, Calls s t → ∀ c, t.Active c → ∃ t', t.remove c = .ok t' ∧
    (∀ d, t'.Active d ↔ t.Active d ∧ d ≠ c) ∧
    ∀ l, t'.litVal l = some true → Derives t'.theory l

theorem Inv.calls (h : s.Inv) (hc : Calls s t) : t.Inv := by
  induction hc with
  | refl => exact h
  | tail _ hstep ih =>
    obtain ⟨op, hv, hs⟩ := hstep
    obtain ⟨t', ht', hinv⟩ := apply_spec ih hv
    exact Except.ok.inj (ht'.symm.trans hs) ▸ hinv

theorem Inv.restored (h : s.Inv) : s.Restored := by
  refine ⟨h, fun t ht => ?_, fun t ht c hc => ?_⟩
  · obtain ⟨b, t', ht', hinv, ho, hq, hb⟩ := (h.calls ht).propagate
    refine ⟨b, t', ht', fun hbt p => ?_, ?_⟩
    · rw [← litVal_true_iff.1, ← litVal_true_iff.2, ← ho.theory]
      exact ⟨hinv.litVal_iff_derives (hq hbt) _, hinv.litVal_iff_derives (hq hbt) _⟩
    · cases b
      · simpa using hb
      · simpa using hb
  · obtain ⟨t', ht', hinv, hsel⟩ := remove_spec (h.calls ht) hc
    obtain ⟨rank, hj⟩ := hinv.justified
    exact ⟨t', ht', hsel.active, fun l hl => hj.derives (coherent_litVal t') hl⟩

theorem Inv.moveSupport_iff (h : s.Inv) (hf : s.Fresh old moved new) :
    (∃ s', s.moveSupport old moved new = .ok s' ∧ s'.Inv) ↔ s.Movable old moved := by
  obtain ⟨rank, hsup⟩ := h.support
  cases hc : (s.prop old).supportedBy with
  | none =>
    refine iff_of_true ?_ (Or.inl fun c hc' => by simp [hc] at hc')
    obtain ⟨s', hs', hinv⟩ := move_unsupported h hf hc
    exact ⟨s', by simpa only [moveSupport, hc] using hs', hinv⟩
  | some c =>
    by_cases hm : c ∈ moved
    · refine iff_of_true (move_supporter h hf hc hm) (Or.inl fun d hd => ?_)
      exact Option.some.inj (hc.symm.trans hd) ▸ hm
    · have hmove : s.moveSupport old moved new = s.transferClauses old new moved true := by
        simp only [moveSupport, hc, hm, not_false_eq_true, if_true]
      have hv : s.value old ≠ .unknown := by
        rw [Ne, hsup.unknown, hc]
        simp
      have hret := transferClauses_returns true h.wf (hf.transferable h) hf.ne hf.new_mem
      rw [hmove]
      constructor
      · intro ⟨s', hs', hinv⟩
        obtain ⟨hroom, ht⟩ := hret.of_eq hs'
        exact Or.inr (stands_of_move h hf hv ht ⟨c, hc, hm⟩ hroom hinv)
      · intro hmov
        have hs : ∀ d ∈ moved, Stands old (s.clause d) :=
          hmov.resolve_left fun hall => hm (hall c hc)
        have hroom : ∀ d ∈ moved, Room true old (s.clause d) := fun d hd =>
          (hs d hd).room h hv (hf.mem d hd)
        obtain ⟨s', hs', ht⟩ := hret.returns hroom
        exact ⟨s', hs', move_inv h hf hv ht hroom hs⟩

theorem MoveRun.inv (h : MoveRun s) : s.Inv := by
  induction h with
  | new => exact inv_empty
  | call _ hv hs ih =>
    obtain ⟨s', hs', hinv⟩ := apply_spec ih hv
    exact Except.ok.inj (hs'.symm.trans hs) ▸ hinv
  | move _ hf hm hs ih =>
    obtain ⟨s', hs', hinv⟩ := (ih.moveSupport_iff hf).mpr hm
    exact Except.ok.inj (hs'.symm.trans hs) ▸ hinv

/-- After any run, a move keeps the representation invariant and all that follows from
it if and only if the supporter of the old proposition, if it has one, moves too or
every moved clause stands the loss. -/
theorem moveSupport_restored_iff (h : MoveRun s) (hf : s.Fresh old moved new) :
    (∃ s', s.moveSupport old moved new = .ok s' ∧ s'.Restored) ↔ s.Movable old moved := by
  rw [← h.inv.moveSupport_iff hf]
  constructor
  · intro ⟨s', hs', hr⟩
    exact ⟨s', hs', hr.inv⟩
  · intro ⟨s', hs', hinv⟩
    exact ⟨s', hs', hinv.restored⟩

theorem Run.moveRun {ops : List Op} (h : Run ops s) : MoveRun s := by
  induction h with
  | nil => exact MoveRun.new
  | snoc _ hv hs ih => exact ih.call hv hs

/-- Two propositions, the first true by a unit clause. -/
def unitClause : List Op := [.createProposition, .createProposition,
  .createClause none [0] [] false true, .propagate]

theorem moveSupport_restored_iff_unitClause : ∃ s s', MoveRun s ∧ s.value 0 = .ptrue ∧
    s.moveSupport 0 [0] 1 = .ok s' ∧ s'.Restored := by
  have h : Run unitClause (stateAfter unitClause) := run_stateAfter (by decide)
  have hf : Fresh 0 [0] 1 (stateAfter unitClause) :=
    ⟨by decide, by decide, by decide, by decide, by decide⟩
  obtain ⟨s', hs', hr⟩ := (moveSupport_restored_iff h.moveRun hf).mpr (Or.inl (by decide))
  exact ⟨_, s', h.moveRun, by decide, hs', hr⟩

/-- A second clause with the same literal, and one against the other proposition. -/
def unitClauses : List Op := unitClause ++
  [.createClause none [0] [] false true, .createClause none [] [1] false true]

/-- The second clause moves while the first supports the proposition. It stays satisfied
by the new one, which has no value, and a conflict goes unnoticed. -/
theorem moved_clause_invisible : ∃ s s' t, Run unitClauses s ∧ s.Fresh 0 [1] 1 ∧
    s.moveSupport 0 [1] 1 = .ok s' ∧ s'.propagate = .ok (true, t) ∧ Contradicts s'.theory := by
  refine ⟨stateAfter unitClauses, _, _, run_stateAfter (by decide),
    ⟨by decide, by decide, by decide, by decide, by decide⟩, rfl, rfl, ?_⟩
  refine UnitProp.contradicts_of_both (l := (1, true)) (.unit ⟨1, ⟨by decide, rfl⟩, rfl⟩ ?_ ?_)
    (.unit ⟨2, ⟨by decide, rfl⟩, rfl⟩ ?_ ?_)
  · exact List.mem_singleton_self (1, true)
  · intro m hm hne
    exact absurd (List.mem_singleton.mp hm) hne
  · exact List.mem_singleton_self (1, false)
  · intro m hm hne
    exact absurd (List.mem_singleton.mp hm) hne

end Livingstone.Ltms
