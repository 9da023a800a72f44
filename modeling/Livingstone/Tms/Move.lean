import Livingstone.Tms.Transfer

/-! What a transfer does to the parts of the representation invariant. The old and
the new proposition agree in value when the old one has none or gives its support
away; otherwise the moved clauses lose an assignment. -/

namespace Livingstone

open UnitProp (Literal)
open Function (update update_of_ne)

/-- The literals of a clause that is transferred. -/
def respellLit (old new : PropId) (l : Literal PropId) : Literal PropId :=
  (respell old new l.1, l.2)

/-- The marks suit the respelled literals when these have the values of the old ones. -/
theorem Bookkeeping.respell {lv lv' : Literal PropId → Option Bool} {ls : List (Literal PropId)}
    {m : Mark} {old new : PropId} (h : Bookkeeping lv ls m)
    (hlv : ∀ l ∈ ls, lv' (respellLit old new l) = lv l) :
    Bookkeeping lv' (ls.map (respellLit old new))
      { m with satisfyingProp := m.satisfyingProp.map (respell old new) } := by
  have hnone : m.satisfyingProp.map (Livingstone.respell old new) = none ↔
      m.satisfyingProp = none := Option.map_eq_none_iff
  refine ⟨?_, ?_, ?_, ?_, ?_⟩
  · rw [h.count, List.countP_map]
    refine congrArg _ (List.countP_congr fun l hl => ?_)
    simp [hlv l hl]
  · intro p hp
    obtain ⟨q, hq, rfl⟩ := Option.map_eq_some_iff.mp hp
    obtain ⟨b, hb, ht⟩ := h.sat q hq
    exact ⟨b, List.mem_map_of_mem (f := respellLit old new) hb, (hlv _ hb).trans ht⟩
  · intro hs l hl
    obtain ⟨x, hx, rfl⟩ := List.mem_map.mp hl
    rw [hlv x hx]
    exact h.unsat (hnone.mp hs) x hx
  · rw [hnone]
    exact h.fringe
  · rw [hnone]
    exact h.unsatisfied

theorem countP_or {α : Type*} {P Q : α → Prop} [DecidablePred P] [DecidablePred Q]
    (h : ∀ x, ¬ (P x ∧ Q x)) (l : List α) :
    l.countP (fun x => decide (P x) || decide (Q x)) = l.countP P + l.countP Q := by
  induction l with
  | nil => rfl
  | cons x l ih =>
    simp only [List.countP_cons, ih]
    have := h x
    by_cases hp : P x
    · have hq : ¬ Q x := fun hq => this ⟨hp, hq⟩
      simp only [hp, hq, decide_true, decide_false, Bool.true_or, if_true, Bool.false_eq_true,
        if_false]
      omega
    · by_cases hq : Q x
      · simp only [hp, hq, decide_true, decide_false, Bool.false_or, if_true, Bool.false_eq_true,
          if_false]
        omega
      · simp [hp, hq]

/-- Respelled literals that lose their value suit the old flags only if the clause is
satisfied by another proposition or keeps two unassigned literals. -/
theorem Bookkeeping.lose_iff {lv : Literal PropId → Option Bool} {ls : List (Literal PropId)}
    {m : Mark} {old new : PropId} (h : Bookkeeping lv ls m) (hold : ∃ b, (old, b) ∈ ls)
    (hknown : ∀ b, lv (old, b) ≠ none) (hnew : ∀ b, lv (new, b) = none) :
    Bookkeeping lv (ls.map (respellLit old new))
        { m with
          numUnassigned := m.numUnassigned + (ls.countP fun l => l.1 = old : ℕ)
          satisfyingProp := m.satisfyingProp.map (Livingstone.respell old new) } ↔
      (m.satisfyingProp = none ∧ 2 ≤ m.numUnassigned) ∨
        ∃ q, q ≠ old ∧ m.satisfyingProp = some q := by
  have hpos : 0 < ls.countP fun l => l.1 = old := by
    obtain ⟨b, hb⟩ := hold
    exact List.countP_pos_iff.mpr ⟨(old, b), hb, by simp⟩
  have h0 : 0 ≤ m.numUnassigned := by
    rw [h.count]
    exact Int.natCast_nonneg _
  have hlv (l : Literal PropId) :
      lv (respellLit old new l) = if l.1 = old then none else lv l := by
    obtain ⟨q, x⟩ := l
    by_cases hq : q = old
    · simp [respellLit, hq, hnew]
    · simp [respellLit, hq, respell_of_ne hq]
  constructor
  · intro h'
    cases hs : m.satisfyingProp with
    | none =>
      refine Or.inl ⟨rfl, ?_⟩
      have hf := h.fringe.symm.trans h'.fringe
      have hu := h.unsatisfied.symm.trans h'.unsatisfied
      simp only [hs, Option.map_none, true_and] at hf hu
      omega
    | some q =>
      refine Or.inr ⟨q, ?_, rfl⟩
      rintro rfl
      obtain ⟨b, -, ht⟩ := h'.sat new (by simp [hs])
      simp [hnew] at ht
  · intro hm
    have hsat : m.satisfyingProp.map (Livingstone.respell old new) = m.satisfyingProp := by
      refine map_respell_ne fun hs => ?_
      rcases hm with hm | ⟨q, hq, hm⟩
      · simp [hm.1] at hs
      · exact hq (Option.some.inj (hm.symm.trans hs))
    rw [hsat]
    refine ⟨?_, fun p hp => ?_, fun hs l hl => ?_, ?_, ?_⟩
    · rw [h.count, List.countP_map]
      have hsplit (l : Literal PropId) : (decide (lv (respellLit old new l) = none) : Bool) =
          (decide (lv l = none) || decide (l.1 = old)) := by
        by_cases hl : l.1 = old <;> simp [hlv, hl]
      have hdisj (l : Literal PropId) : ¬ (lv l = none ∧ l.1 = old) := by
        rintro ⟨hl, rfl⟩
        exact hknown l.2 hl
      rw [show (fun l => decide (lv l = none)) ∘ respellLit old new =
        fun l => decide (lv l = none) || decide (l.1 = old) from funext hsplit, countP_or hdisj]
      push_cast
      rfl
    · obtain ⟨b, hb, ht⟩ := h.sat p hp
      have hpo : p ≠ old := by
        rcases hm with hm | ⟨q, hq, hm⟩
        · simp [hm.1] at hp
        · rwa [← Option.some.inj (hm.symm.trans hp)]
      refine ⟨b, List.mem_map.mpr ⟨(p, b), hb, ?_⟩, ht⟩
      simp [respellLit, respell_of_ne hpo]
    · obtain ⟨x, hx, rfl⟩ := List.mem_map.mp hl
      rw [hlv]
      split_ifs
      · simp
      · exact h.unsat hs x hx
    · rw [h.fringe]
      rcases hm with hm | ⟨q, -, hm⟩
      · simp only [hm.1, true_and]
        omega
      · simp [hm]
    · rw [h.unsatisfied]
      rcases hm with hm | ⟨q, -, hm⟩
      · simp only [hm.1, true_and]
        omega
      · simp [hm]

namespace Ltms

variable {s s' : Ltms} {c d : ClauseId} {old new p : PropId} {b losing : Bool}
  {moved : List ClauseId}

theorem lits_respelled (k : Clause) :
    (respelled losing old new k).lits = k.lits.map (respellLit old new) := by
  have h (b : Bool) := part_respelled losing old new k b
  have ht := h true
  have hf := h false
  simp only [Clause.part, if_true, Bool.false_eq_true, if_false] at ht hf
  simp only [Clause.lits, ht, hf, List.map_append, List.map_map]
  rfl

theorem getSupports_respelled (k : Clause) :
    (respelled losing old new k).getSupports = k.getSupports.map (respell old new) := by
  unfold respelled Clause.getSupports
  split_ifs
  · rfl
  · rw [List.getElem?_map]

namespace Transferred

variable (h : Transferred losing old new moved s s')
include h

theorem clauses : s'.clauses = s.clauses := congrArg (·.clauses) h.rest

theorem props : s'.props = s.props := congrArg (·.props) h.rest

theorem undoList : s'.undoList = s.undoList := congrArg (·.undoList) h.rest

theorem litVal : s'.litVal = s.litVal := by
  funext l
  simp only [Ltms.litVal, h.value]

theorem field {β : Type*} (f : Clause → β) (hf : ∀ k, f (respelled losing old new k) = f k)
    (d : ClauseId) : f (s'.clause d) = f (s.clause d) := by
  rw [h.clause]
  split_ifs
  · exact hf _
  · rfl

theorem active (d : ClauseId) : s'.Active d ↔ s.Active d := by
  simp only [Ltms.Active, h.clauses, h.field Clause.deleted (fun _ => rfl) d]

theorem lits (d : ClauseId) : (s'.clause d).lits =
    if d ∈ moved then (s.clause d).lits.map (respellLit old new) else (s.clause d).lits := by
  rw [h.clause]
  split_ifs
  · exact lits_respelled _
  · rfl

theorem getSupports (d : ClauseId) : (s'.clause d).getSupports =
    if d ∈ moved then (s.clause d).getSupports.map (respell old new)
    else (s.clause d).getSupports := by
  rw [h.clause]
  split_ifs
  · exact getSupports_respelled _
  · rfl

theorem containers (hc : s.Containers) : s'.Containers := by
  have hin := h.field Clause.inFringe fun _ => rfl
  have hun := h.field Clause.unsatisfied fun _ => rfl
  have hvol := h.field Clause.isVolatile fun _ => rfl
  have hidx := h.field Clause.fringeIndex fun _ => rfl
  have hfr (v : Bool) : s'.fringeOf v = s.fringeOf v := congrArg (·.fringeOf v) h.rest
  have hus : s'.unsatisfied = s.unsatisfied := congrArg (·.unsatisfied) h.rest
  refine ⟨fun v d => ?_, fun v => hfr v ▸ hc.fringe_nodup v, fun v i d hd => ?_, fun d => ?_,
    hus ▸ hc.unsat_nodup⟩
  · rw [hfr, h.clauses, hin, hvol]
    exact hc.fringe_mem v d
  · rw [hidx]
    exact hc.fringe_index v i d (hfr v ▸ hd)
  · rw [hus, h.clauses, hun]
    exact hc.unsat_mem d

theorem stamps (hs : s.Stamps) : s'.Stamps := by
  have ht : s'.timeStamp = s.timeStamp := congrArg (·.timeStamp) h.rest
  refine ⟨ht ▸ hs.theory_le, ?_⟩
  rw [h.clauses, ht]
  exact fun c hc => h.field Clause.timeStamp (fun _ => rfl) c ▸ hs.clause_le c hc

end Transferred

theorem mark_respelled (k : Clause) : (respelled false old new k).mark =
    { k.mark with satisfyingProp := k.mark.satisfyingProp.map (respell old new) } := by
  have hgain (b : Bool) : gain false old b k = 0 := if_neg (by simp)
  simp only [respelled, Clause.mark, hgain, add_zero]

theorem sat_respell {ls : List (Literal PropId)} {m : Mark} (h : m.Stale ls) :
    ∀ p, m.satisfyingProp.map (respell old new) = some p →
      ∃ b, (p, b) ∈ ls.map (respellLit old new) := by
  intro p hp
  obtain ⟨q, hq, rfl⟩ := Option.map_eq_some_iff.mp hp
  obtain ⟨b, hb⟩ := h.sat q hq
  exact ⟨b, List.mem_map.mpr ⟨(q, b), hb, rfl⟩⟩

theorem litVal_respellLit (hv : s.value new = s.value old) (l : Literal PropId) :
    s.litVal (respellLit old new l) = s.litVal l := by
  obtain ⟨q, x⟩ := l
  by_cases hq : q = old
  · subst hq
    simp only [litVal, respellLit, respell_old, hv]
  · simp only [litVal, respellLit, respell_of_ne hq]

theorem Transferred.marked (h : Transferred false old new moved s s')
    (hv : s.value new = s.value old) (hm : s.Marked s.litVal) : s'.Marked s'.litVal := by
  refine ⟨fun d hd => ?_, fun d hd hdel => ?_⟩
  · have hb := hm.active d ((h.active d).mp hd)
    rw [h.litVal, h.clause]
    split_ifs
    · rw [lits_respelled, mark_respelled]
      exact hb.respell fun l _ => litVal_respellLit hv l
    · exact hb
  · rw [h.field Clause.deleted (fun _ => rfl)] at hdel
    have hst := hm.deleted d (h.clauses ▸ hd) hdel
    rw [h.clause]
    split_ifs
    · rw [lits_respelled, mark_respelled]
      exact ⟨sat_respell hst, hst.inFringe, hst.unsatisfied, hst.nonneg, hst.le⟩
    · exact hst

theorem just_rename {lv lv' : Literal PropId → Option Bool} {rank rank' : PropId → ℕ}
    {ls : List (Literal PropId)} {f : PropId → PropId}
    (hf : ∀ l ∈ ls, lv l ≠ none → lv' (f l.1, l.2) = lv l ∧ rank' (f l.1) = rank l.1)
    (h : ∃ b, (p, b) ∈ ls ∧ lv (p, b) = some true ∧
      ∀ l ∈ ls, l ≠ (p, b) → lv l = some false ∧ rank l.1 < rank p) :
    ∃ b, (f p, b) ∈ ls.map (fun l => (f l.1, l.2)) ∧ lv' (f p, b) = some true ∧
      ∀ l ∈ ls.map (fun l => (f l.1, l.2)), l ≠ (f p, b) →
        lv' l = some false ∧ rank' l.1 < rank' (f p) := by
  obtain ⟨b, hb, ht, hrest⟩ := h
  obtain ⟨hv, hr⟩ := hf (p, b) hb (by simp [ht])
  refine ⟨b, List.mem_map.mpr ⟨(p, b), hb, rfl⟩, hv.trans ht, fun l hl hne => ?_⟩
  obtain ⟨m, hm, rfl⟩ := List.mem_map.mp hl
  have hmp : m ≠ (p, b) := by
    rintro rfl
    exact hne rfl
  obtain ⟨hfalse, hlt⟩ := hrest m hm hmp
  obtain ⟨hv', hr'⟩ := hf m hm (by simp [hfalse])
  exact ⟨hv'.trans hfalse, by rw [hr', hr]; exact hlt⟩

/-- The moved clauses hold `new` in place of `old`, and `new` has the value and the
support that `old` had. -/
structure HandedOver (old new : PropId) (moved : List ClauseId) (s s' : Ltms) : Prop where
  clauses : s'.clauses = s.clauses
  props : s'.props = s.props
  undoList : s'.undoList = s.undoList
  active : ∀ d, s'.Active d ↔ s.Active d
  lits : ∀ d, (s'.clause d).lits =
    if d ∈ moved then (s.clause d).lits.map (respellLit old new) else (s.clause d).lits
  getSupports : ∀ d, (s'.clause d).getSupports =
    if d ∈ moved then (s.clause d).getSupports.map (respell old new)
    else (s.clause d).getSupports
  value : ∀ q, s'.value q = if q = new then s.value old else s.value q
  supportedBy : ∀ q, (s'.prop q).supportedBy =
    if q = new then (s.prop old).supportedBy else (s.prop q).supportedBy

theorem HandedOver.supports_back {rank : PropId → ℕ} (h : HandedOver old new moved s s')
    (hs : s.Support ∅ s.litVal rank) (hnew : s.value new = .unknown) {d : ClauseId}
    (hd : d ∈ s.clauses) (hp : (s'.clause d).getSupports = some p) :
    ∃ q, (s.clause d).getSupports = some q ∧ q ≠ new ∧
      p = if d ∈ moved then respell old new q else q := by
  have hnone : (s.prop new).supportedBy = none := (hs.unknown new).mp hnew
  have hnn {q : PropId} (hq : (s.clause d).getSupports = some q) : q ≠ new := by
    rintro rfl
    have := (hs.back d hd q hq).2
    simp [hnone] at this
  rw [h.getSupports] at hp
  split_ifs at hp ⊢
  · obtain ⟨q, hq, rfl⟩ := Option.map_eq_some_iff.mp hp
    exact ⟨q, hq, hnn hq, rfl⟩
  · exact ⟨p, hp, hnn hp, rfl⟩

theorem HandedOver.litVal_respell (h : HandedOver old new moved s s')
    (hnew : s.value new = .unknown) (rank : PropId → ℕ) (d : ClauseId) {l : Literal PropId}
    (hl : s.litVal l ≠ none) :
    s'.litVal ((if d ∈ moved then respell old new else id) l.1, l.2) = s.litVal l ∧
      update rank new (rank old) ((if d ∈ moved then respell old new else id) l.1) =
        rank l.1 := by
  obtain ⟨q, x⟩ := l
  have hqn : q ≠ new := by
    rintro rfl
    exact hl (litVal_eq_none.mpr hnew)
  by_cases hc : d ∈ moved ∧ q = old
  · obtain ⟨hc, rfl⟩ := hc
    simp [hc, litVal, h.value]
  · have hf : (if d ∈ moved then respell old new else id) q = q := by
      split_ifs with hm
      · exact respell_of_ne fun hq => hc ⟨hm, hq⟩
      · rfl
    rw [hf]
    simp [litVal, h.value, hqn]

/-- When the supporter of `old` is among the moved clauses, only `old` is left
without a link to its supporter. -/
theorem HandedOver.support {rank : PropId → ℕ} (h : HandedOver old new moved s s')
    (hs : s.Support ∅ s.litVal rank) (hu : s.undoList = []) (hne : old ≠ new)
    (hnew : s.value new = .unknown) (hprop : new ∈ s.props)
    (hmoved : ∀ c, (s.prop old).supportedBy = some c → c ∈ moved) :
    s'.Support {old} s'.litVal (update rank new (rank old)) ∧
      ∀ c ∈ s'.clauses, (s'.clause c).getSupports ≠ some old := by
  have hold {d : ClauseId} (hd : d ∈ s.clauses)
      (hq : (s.clause d).getSupports = some old) : d ∈ moved :=
    hmoved d (hs.back d hd old hq).2
  refine ⟨⟨fun p => ?_, fun p hp => ?_, fun p d hd hn => ?_, fun d hd p hp => ?_,
    fun d hd p hp => ?_, by rw [h.undoList, hu]; exact List.nodup_nil, fun p hp => ?_⟩,
    fun d hd hp => ?_⟩
  · rw [h.value, h.supportedBy]
    split_ifs
    · exact hs.unknown old
    · exact hs.unknown p
  · rw [h.props]
    rw [h.value] at hp
    split_ifs at hp with hpn
    · exact hpn ▸ hprop
    · exact hs.alloc p hp
  · rw [h.supportedBy] at hd
    rw [h.active, h.getSupports]
    split_ifs at hd with hpn
    · obtain ⟨ha, hg⟩ := hs.forth old d hd (Set.notMem_empty old)
      exact ⟨ha, by rw [if_pos (hmoved d hd), hg, hpn, Option.map_some, respell_old]⟩
    · obtain ⟨ha, hg⟩ := hs.forth p d hd (Set.notMem_empty p)
      refine ⟨ha, ?_⟩
      split_ifs
      · rw [hg, Option.map_some, respell_of_ne hn]
      · exact hg
  · rw [h.clauses] at hd
    obtain ⟨q, hq, hqn, rfl⟩ := h.supports_back hs hnew hd hp
    obtain ⟨ha, hsup⟩ := hs.back d hd q hq
    rw [h.active, h.supportedBy]
    refine ⟨ha, ?_⟩
    by_cases hqo : q = old
    · subst hqo
      simp [hold hd hq, hsup]
    · have : (if d ∈ moved then respell old new q else q) = q := by
        split_ifs
        · exact respell_of_ne hqo
        · rfl
      rw [this, if_neg hqn]
      exact hsup
  · rw [h.clauses] at hd
    obtain ⟨q, hq, hqn, rfl⟩ := h.supports_back hs hnew hd hp
    have := just_rename (f := if d ∈ moved then respell old new else id)
      (fun l _ hl => h.litVal_respell hnew rank d hl) (hs.just d hd q hq)
    rw [h.lits]
    split_ifs at this ⊢
    · exact this
    · simpa using this
  · rw [h.undoList, hu] at hp
    cases hp
  · rw [h.clauses] at hd
    obtain ⟨q, hq, hqn, he⟩ := h.supports_back hs hnew hd hp
    split_ifs at he with hm
    · unfold respell at he
      split_ifs at he with hqo
      · exact hne he
      · exact hqo he.symm
    · exact hm (hold hd (he ▸ hq))

theorem countP_old {k : Clause} (h : ClauseShape k) :
    (k.lits.countP fun l => l.1 = old : ℕ) = gain true old true k + gain true old false k := by
  obtain ⟨ht, hf⟩ := Clause.nodup_lits.mp h.nodup
  have hcount {l : List PropId} (hn : l.Nodup) (x : Bool) :
      (l.map (·, x)).countP (fun l => decide (l.1 = old)) = if old ∈ l then 1 else 0 := by
    rw [List.countP_map, ← hn.count]
    refine List.countP_congr fun p _ => ?_
    simp
  have hlits : k.lits = (k.part true).map (·, true) ++ (k.part false).map (·, false) := rfl
  rw [hlits, List.countP_append, hcount ht, hcount hf]
  simp only [gain, true_and]
  push_cast
  rfl

/-- A clause in the theory stands the loss of an assignment to `old` when another
proposition satisfies it and it supports nothing, or when it is not satisfied and has
two unassigned literals. Outside the theory only the counter is touched. -/
def Stands (old : PropId) (k : Clause) : Prop :=
  (∃ b, (old, b) ∈ k.lits) →
    if k.deleted then k.numUnassigned + (k.lits.countP fun l => l.1 = old : ℕ) ≤ k.numLits
    else (k.satisfyingProp = none ∧ 2 ≤ k.numUnassigned) ∨
      (∃ q, q ≠ old ∧ k.satisfyingProp = some q) ∧ k.getSupports = none

end Ltms

end Livingstone
