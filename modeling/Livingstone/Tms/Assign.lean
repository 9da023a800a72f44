import Livingstone.Tms.Fringe

/-! Assigning and unassigning a proposition, one clause at a time. A clause that
holds a literal of the proposition moves from the mark that suits the old value
of that literal to the mark that suits the new one. -/

namespace Livingstone

open UnitProp (Literal)
open Function (update update_of_ne)

variable {lv : Literal PropId → Option Bool} {ls : List (Literal PropId)} {m : Mark}
  {l : Literal PropId} {b : Bool}

theorem lengthT_of_le {n : ℤ} (h₀ : 0 ≤ n) (h : n ≤ 127) : lengthT n = n := by
  unfold lengthT
  exact Int.bmod_eq_of_le (by omega) (by omega)

theorem ClauseShape.length_lits {k : Clause} (h : ClauseShape k) :
    k.lits.length = k.literals.length := by
  have := h.numLits
  have := h.numPos_nonneg
  have := h.numPos_le
  simp only [Clause.lits, Clause.positiveProps, Clause.negativeProps, List.length_append,
    List.length_map, List.length_take, List.length_drop]
  omega

theorem countP_flip {α : Type*} [DecidableEq α] {P Q : α → Bool} {xs : List α} {x : α}
    (hn : xs.Nodup) (hx : x ∈ xs) (hP : P x = true) (hQ : Q x = false)
    (hrest : ∀ y, y ≠ x → Q y = P y) : xs.countP P = xs.countP Q + 1 := by
  have hp := List.perm_cons_erase hx
  rw [hp.countP_eq, hp.countP_eq, List.countP_cons_of_pos hP, List.countP_cons_of_neg (by simp [hQ])]
  congr 1
  refine List.countP_congr fun y hy => ?_
  have hne : y ≠ x := fun he => (hn.mem_erase_iff.mp hy).1 he
  rw [hrest y hne]

theorem count_assign (hn : ls.Nodup) (hl : l ∈ ls) (h₀ : lv l = none) (b : Bool) :
    (ls.countP fun x => lv x = none) =
      (ls.countP fun x => update lv l (some b) x = none) + 1 :=
  countP_flip hn hl (by simp [h₀]) (by simp) fun y hy => by rw [update_of_ne hy]

theorem count_unassign (hn : ls.Nodup) (hl : l ∈ ls) (h₀ : lv l = some b) :
    (ls.countP fun x => update lv l none x = none) = (ls.countP fun x => lv x = none) + 1 := by
  have h₁ : update lv l none l = none := by simp
  have := count_assign hn hl h₁ b
  rwa [Function.update_idem, show update lv l (some b) = lv by rw [← h₀, Function.update_eq_self]]
    at this

namespace Bookkeeping

variable (h : Bookkeeping lv ls m)
include h

theorem count_pos (hl : l ∈ ls) (h₀ : lv l = none) : 0 < m.numUnassigned := by
  have : 0 < ls.countP fun x => lv x = none := List.countP_pos_iff.mpr ⟨l, hl, by simp [h₀]⟩
  rw [h.count]
  exact_mod_cast this

theorem count_nonneg : 0 ≤ m.numUnassigned := by
  rw [h.count]
  omega

theorem count_le : m.numUnassigned ≤ ls.length := by
  rw [h.count]
  exact_mod_cast List.countP_le_length

theorem count_lt (hl : l ∈ ls) (h₀ : lv l = some b) : m.numUnassigned < ls.length := by
  have : (ls.countP fun x => lv x = none) < ls.length :=
    lt_of_le_of_ne List.countP_le_length fun he => by
      have := List.countP_eq_length.mp he l hl
      simp [h₀] at this
  rw [h.count]
  exact_mod_cast this

theorem none_iff : m.satisfyingProp = none ↔ ∀ l ∈ ls, lv l ≠ some true := by
  refine ⟨h.unsat, fun hn => ?_⟩
  by_contra hne
  obtain ⟨p, hp⟩ := Option.ne_none_iff_exists'.mp hne
  obtain ⟨b, hb, ht⟩ := h.sat p hp
  exact hn _ hb ht

theorem not_fringe {p : PropId} (hs : m.satisfyingProp = some p) : m.inFringe = false := by
  by_contra hf
  have := (h.fringe.mp (by simpa using hf)).1
  simp [hs] at this

theorem not_unsatisfied {p : PropId} (hs : m.satisfyingProp = some p) : m.unsatisfied = false := by
  by_contra hf
  have := (h.unsatisfied.mp (by simpa using hf)).1
  simp [hs] at this

theorem assign_true (hn : ls.Nodup) (hl : l ∈ ls) (h₀ : lv l = none) :
    Bookkeeping (update lv l (some true)) ls
      ⟨m.numUnassigned - 1, m.satisfyingProp.or (some l.1), false, false⟩ := by
  refine ⟨?_, fun p hp => ?_, fun hp => ?_, by simp, by simp⟩
  · rw [h.count, count_assign hn hl h₀ true]
    push_cast
    ring
  · cases hs : m.satisfyingProp with
    | none =>
      obtain rfl : l.1 = p := by simpa [hs] using hp
      exact ⟨l.2, hl, by simp⟩
    | some q =>
      obtain rfl : q = p := by simpa [hs] using hp
      obtain ⟨b, hb, ht⟩ := h.sat q hs
      refine ⟨b, hb, ?_⟩
      rw [update_of_ne (by rintro rfl; simp [h₀] at ht), ht]
  · simp at hp

theorem assign_false (hn : ls.Nodup) (hl : l ∈ ls) (h₀ : lv l = none) :
    Bookkeeping (update lv l (some false)) ls
      ⟨m.numUnassigned - 1, m.satisfyingProp, m.satisfyingProp = none ∧ m.numUnassigned = 2,
        m.satisfyingProp = none ∧ m.numUnassigned = 1⟩ := by
  refine ⟨?_, fun p hp => ?_, fun hp x hx => ?_, ?_, ?_⟩
  · rw [h.count, count_assign hn hl h₀ false]
    push_cast
    ring
  · obtain ⟨b, hb, ht⟩ := h.sat p hp
    refine ⟨b, hb, ?_⟩
    rw [update_of_ne (by rintro rfl; simp [h₀] at ht), ht]
  · by_cases hxl : x = l
    · simp [hxl]
    · rw [update_of_ne hxl]
      exact h.unsat hp x hx
  · simp only [decide_eq_true_eq]
    exact and_congr_right fun _ => by omega
  · simp only [decide_eq_true_eq]
    exact and_congr_right fun _ => by omega

theorem unassign_true (hn : ls.Nodup) (hl : l ∈ ls) (h₀ : lv l = some true) {q : Option PropId}
    (hsome : ∀ p, q = some p → ∃ b, (p, b) ∈ ls ∧ update lv l none (p, b) = some true)
    (hnone : q = none → ∀ x ∈ ls, update lv l none x ≠ some true) :
    Bookkeeping (update lv l none) ls
      ⟨m.numUnassigned + 1, q, q = none ∧ m.numUnassigned = 0, false⟩ := by
  have hcount := h.count_nonneg
  refine ⟨?_, hsome, hnone, ?_, ?_⟩
  · rw [h.count, count_unassign hn hl h₀]
    push_cast
    ring
  · simp only [decide_eq_true_eq]
    exact and_congr_right fun _ => by omega
  · simp only [Bool.false_eq_true, false_iff]
    rintro ⟨-, hz⟩
    omega

theorem unassign_false (hn : ls.Nodup) (hl : l ∈ ls) (h₀ : lv l = some false) :
    Bookkeeping (update lv l none) ls
      ⟨m.numUnassigned + 1, m.satisfyingProp, m.unsatisfied, false⟩ := by
  have hcount := h.count_nonneg
  refine ⟨?_, fun p hp => ?_, fun hp x hx => ?_, ?_, ?_⟩
  · rw [h.count, count_unassign hn hl h₀]
    push_cast
    ring
  · obtain ⟨b, hb, ht⟩ := h.sat p hp
    refine ⟨b, hb, ?_⟩
    rw [update_of_ne (by rintro rfl; simp [h₀] at ht), ht]
  · by_cases hxl : x = l
    · simp [hxl]
    · rw [update_of_ne hxl]
      exact h.unsat hp x hx
  · rw [h.unsatisfied]
    exact and_congr_right fun _ => by simp
  · simp only [Bool.false_eq_true, false_iff]
    rintro ⟨-, hz⟩
    omega

theorem congr {lv' : Literal PropId → Option Bool}
    (heq : ∀ l ∈ ls, lv' l = lv l) : Bookkeeping lv' ls m := by
  refine ⟨?_, fun p hp => ?_, fun hp l hl => ?_, h.fringe, h.unsatisfied⟩
  · rw [h.count]
    congr 1
    exact List.countP_congr fun l hl => by rw [heq l hl]
  · obtain ⟨b, hb, ht⟩ := h.sat p hp
    exact ⟨b, hb, heq _ hb ▸ ht⟩
  · rw [heq l hl]
    exact h.unsat hp l hl

end Bookkeeping

namespace Ltms

variable {s : Ltms} {c : ClauseId} {p : PropId}

theorem findSatisfyingProp_some {k : Clause} (h : s.findSatisfyingProp k = some p) :
    ∃ b, (p, b) ∈ k.lits ∧ s.litVal (p, b) = some true := by
  simp only [findSatisfyingProp, Option.map_eq_some_iff] at h
  obtain ⟨⟨q, b⟩, hf, rfl⟩ := h
  exact ⟨b, List.mem_of_find?_eq_some hf, by simpa using List.find?_some hf⟩

theorem findSatisfyingProp_none {k : Clause} :
    s.findSatisfyingProp k = none ↔ ∀ l ∈ k.lits, s.litVal l ≠ some true := by
  simp [findSatisfyingProp]

/-- `c` no longer supports `q`, which waits to be unassigned. -/
def dropSupport (s : Ltms) (c : ClauseId) (q : PropId) : Ltms :=
  (s.enqueueForUndo q).setClause c { s.clause c with supports := noProposition }

theorem setSupports_none (s : Ltms) (c : ClauseId) (q : PropId) :
    (s.enqueueForUndo q).setSupports c none = .ok (s.dropSupport c q) := rfl

section
variable (hc : s.Containers) (hk : ClauseShape (s.clause c))
include hc hk

theorem decr_step (hcount : (s.clause c).numUnassigned =
      ((s.clause c).lits.countP fun l => lv l = none : ℕ))
    (hpos : 0 < (s.clause c).numUnassigned) :
    ∃ s', s.decrNumUnassigned c = .ok s' ∧
      s.Remarks s' c { (s.clause c).mark with numUnassigned := (s.clause c).numUnassigned - 1 } := by
  obtain ⟨s', hs', hr⟩ := remarks_decrNumUnassigned hc hpos
  have hle : (s.clause c).numUnassigned ≤ (s.clause c).lits.length := by
    rw [hcount]
    exact_mod_cast List.countP_le_length
  have := hk.length_lits
  have := hk.bound
  rw [lengthT_of_le (by omega) (by omega)] at hr
  exact ⟨s', hs', hr⟩

theorem incr_step (hcount : 0 ≤ (s.clause c).numUnassigned)
    (hlt : (s.clause c).numUnassigned < (s.clause c).lits.length) :
    ∃ s', s.incrNumUnassigned c = .ok s' ∧
      s.Remarks s' c { (s.clause c).mark with numUnassigned := (s.clause c).numUnassigned + 1 } := by
  have := hk.length_lits
  have := hk.bound
  have hlits := hk.numLits
  obtain ⟨s', hs', hr⟩ := remarks_incrNumUnassigned hc (c := c) (by omega)
  rw [lengthT_of_le (by omega) (by omega)] at hr
  exact ⟨s', hs', hr⟩

/-- A clause just taken from the fringe is treated as if it were still there. -/
theorem assignSame_step {f : Bool} (hf : (s.clause c).inFringe = true → f = true)
    (hb : Bookkeeping lv (s.clause c).lits { (s.clause c).mark with inFringe := f })
    (hl : (p, b) ∈ (s.clause c).lits) (ha : s.Active c) (h₀ : lv (p, b) = none) :
    ∃ s' m, assignSame p s c = .ok s' ∧ s.Remarks s' c m ∧
      Bookkeeping (update lv (p, b) (some true)) (s.clause c).lits m := by
  obtain ⟨s₁, h₁, r₁⟩ := decr_step hc hk hb.count (hb.count_pos hl h₀)
  have hsat : (s₁.clause c).satisfyingProp = (s.clause c).satisfyingProp :=
    congrArg Mark.satisfyingProp r₁.mark
  have hnew := hb.assign_true hk.nodup hl h₀
  unfold assignSame
  rw [if_neg (by simp [ha.2]), h₁]
  simp only [bind, Except.bind, hsat]
  cases hs : (s.clause c).satisfyingProp with
  | none =>
    have r₂ := remarks_setSatisfyingProp r₁.containers (c := c) (some p)
    obtain ⟨s₃, h₃, r₃⟩ := remarks_removeFromFringe r₂.containers (c := c)
      (by rw [r₂.frame.clauses, r₁.frame.clauses]; exact ha.1)
    rw [if_pos rfl, h₃]
    refine ⟨s₃, _, rfl, r₁.trans (r₂.trans r₃), ?_⟩
    have hu : (s.clause c).unsatisfied = false := by
      by_contra hu
      have := (hb.unsatisfied.mp (by simpa [Clause.mark] using hu)).2
      have := hb.count_pos hl h₀
      omega
    rw [r₂.mark, r₁.mark]
    simpa [Clause.mark, hs, hu] using hnew
  | some q =>
    rw [if_neg (by simp)]
    refine ⟨s₁, _, rfl, r₁, ?_⟩
    have hin : (s.clause c).inFringe = false := by
      by_contra hin
      exact Bool.noConfusion ((hf (by simpa using hin)).symm.trans (hb.not_fringe hs))
    have hu : (s.clause c).unsatisfied = false := hb.not_unsatisfied hs
    simpa [Clause.mark, hs, hin, hu] using hnew

variable (hb : Bookkeeping lv (s.clause c).lits (s.clause c).mark)
  (hl : (p, b) ∈ (s.clause c).lits) (ha : s.Active c)
include hb hl ha

theorem assignOpposite_step (h₀ : lv (p, b) = none) :
    ∃ s' m, assignOpposite s c = .ok s' ∧ s.Remarks s' c m ∧
      Bookkeeping (update lv (p, b) (some false)) (s.clause c).lits m := by
  obtain ⟨s₁, h₁, r₁⟩ := decr_step hc hk hb.count (hb.count_pos hl h₀)
  have hsat : (s₁.clause c).satisfyingProp = (s.clause c).satisfyingProp :=
    congrArg Mark.satisfyingProp r₁.mark
  have hfr : (s₁.clause c).inFringe = (s.clause c).inFringe := congrArg Mark.inFringe r₁.mark
  have hnum : (s₁.clause c).numUnassigned = (s.clause c).numUnassigned - 1 :=
    congrArg Mark.numUnassigned r₁.mark
  have hc₁ : c ∈ s₁.clauses := r₁.frame.clauses ▸ ha.1
  have hnew := hb.assign_false hk.nodup hl h₀
  have hfringe : (s.clause c).inFringe = true ↔
    (s.clause c).satisfyingProp = none ∧ (s.clause c).numUnassigned = 1 := hb.fringe
  have hunsat : (s.clause c).unsatisfied = true ↔
    (s.clause c).satisfyingProp = none ∧ (s.clause c).numUnassigned = 0 := hb.unsatisfied
  have hpos : 0 < (s.clause c).numUnassigned := hb.count_pos hl h₀
  have hu : (s.clause c).unsatisfied = false := by
    by_contra hu
    have := (hunsat.mp (by simpa using hu)).2
    omega
  unfold assignOpposite
  rw [if_neg (by simp [ha.2]), h₁]
  simp only [bind, Except.bind, hsat, hfr, hnum]
  cases hs : (s.clause c).satisfyingProp with
  | none =>
    rw [if_pos rfl]
    simp only [hs, true_and] at hfringe
    split_ifs with hin htwo
    · obtain ⟨s₂, h₂, r₂⟩ := remarks_removeFromFringe r₁.containers hc₁
      have r₃ := remarks_insertIntoUnsat r₂.containers (c := c) (r₂.frame.clauses ▸ hc₁)
      rw [h₂]
      refine ⟨_, _, rfl, r₁.trans (r₂.trans r₃), ?_⟩
      rw [r₂.mark, r₁.mark]
      have hone := hfringe.mp hin
      simpa [Clause.mark, hs, hone] using hnew
    · have r₂ := remarks_insertIntoFringe r₁.containers hc₁
      refine ⟨_, _, rfl, r₁.trans r₂, ?_⟩
      rw [r₁.mark]
      have htwo : (s.clause c).numUnassigned = 2 := by omega
      simpa [Clause.mark, hs, hu, htwo] using hnew
    · refine ⟨s₁, _, rfl, r₁, ?_⟩
      have htwo : (s.clause c).numUnassigned ≠ 2 := by omega
      have hone : (s.clause c).numUnassigned ≠ 1 := fun he => hin (hfringe.mpr he)
      simpa [Clause.mark, hs, hu, htwo, hone, eq_false_of_ne_true hin] using hnew
  | some q =>
    rw [if_neg (by simp)]
    refine ⟨s₁, _, rfl, r₁, ?_⟩
    have hf : (s.clause c).inFringe = false := hb.not_fringe hs
    simpa [Clause.mark, hs, hf, hu] using hnew

theorem unassignSame_step (h₀ : lv (p, b) = some true)
    (hval : ∀ l ∈ (s.clause c).lits,
      s.litVal l = some true ↔ update lv (p, b) none l = some true) :
    ∃ s' m, unassignSame p s c = .ok s' ∧ s.Remarks s' c m ∧
      Bookkeeping (update lv (p, b) none) (s.clause c).lits m := by
  obtain ⟨s₁, h₁, r₁⟩ := incr_step hc hk hb.count_nonneg (hb.count_lt hl h₀)
  have hsat : (s₁.clause c).satisfyingProp = (s.clause c).satisfyingProp :=
    congrArg Mark.satisfyingProp r₁.mark
  have hnum : (s₁.clause c).numUnassigned = (s.clause c).numUnassigned + 1 :=
    congrArg Mark.numUnassigned r₁.mark
  obtain ⟨q₀, hq₀⟩ : ∃ q, (s.clause c).satisfyingProp = some q := by
    cases hs : (s.clause c).satisfyingProp with
    | none => exact absurd h₀ (hb.unsat hs _ hl)
    | some q => exact ⟨q, rfl⟩
  have hf : (s.clause c).inFringe = false := hb.not_fringe hq₀
  have hu : (s.clause c).unsatisfied = false := hb.not_unsatisfied hq₀
  unfold unassignSame
  rw [if_neg (by simp [ha.2]), h₁]
  simp only [bind, Except.bind, hsat]
  by_cases hp : (s.clause c).satisfyingProp = some p
  · rw [if_pos hp]
    set q := s₁.findSatisfyingProp (s₁.clause c) with hq
    have hnew := hb.unassign_true (q := q) hk.nodup hl h₀
      (fun r hr => by
        obtain ⟨b', hb', ht⟩ := findSatisfyingProp_some hr
        rw [r₁.frame.lits] at hb'
        rw [r₁.frame.litVal] at ht
        exact ⟨b', hb', (hval _ hb').mp ht⟩)
      (fun hr x hx => by
        rw [Ne, ← hval x hx, ← r₁.frame.litVal]
        exact findSatisfyingProp_none.mp hr x (r₁.frame.lits c ▸ hx))
    have r₂ := remarks_setSatisfyingProp r₁.containers (c := c) q
    have hz : (s.clause c).numUnassigned + 1 = 1 ↔ (s.clause c).numUnassigned = 0 := by omega
    simp only [setSatisfyingProp, setClause_same, hnum, hz] at *
    split_ifs with hfound
    · have r₃ := remarks_insertIntoFringe r₂.containers (c := c)
        (by rw [r₂.frame.clauses, r₁.frame.clauses]; exact ha.1)
      refine ⟨_, _, rfl, r₁.trans (r₂.trans r₃), ?_⟩
      rw [r₂.mark, r₁.mark]
      simpa [Clause.mark, hfound.1, hfound.2, hu] using hnew
    · refine ⟨_, _, rfl, r₁.trans r₂, ?_⟩
      rw [r₁.mark]
      simpa [Clause.mark, hfound, hu, hf] using hnew
  · rw [if_neg hp]
    have hnew := hb.unassign_true (q := some q₀) hk.nodup hl h₀
      (fun r hr => by
        obtain rfl : q₀ = r := by simpa using hr
        obtain ⟨b', hb', ht⟩ := hb.sat q₀ hq₀
        refine ⟨b', hb', ?_⟩
        rw [update_of_ne _, ht]
        rintro ⟨⟩
        exact hp hq₀)
      (fun hr => by simp at hr)
    refine ⟨_, _, rfl, r₁, ?_⟩
    simpa [Clause.mark, hq₀, hf, hu] using hnew

theorem unassignOpposite_step (h₀ : lv (p, b) = some false)
    (hsup : (s.clause c).getSupports ≠ none → (s.clause c).satisfyingProp ≠ none) :
    ∃ s' m, s.Remarks s' c m ∧ Bookkeeping (update lv (p, b) none) (s.clause c).lits m ∧
      unassignOpposite s c = .ok (match (s.clause c).getSupports with
        | none => s'
        | some q => s'.dropSupport c q) := by
  obtain ⟨s₁, h₁, r₁⟩ := incr_step hc hk hb.count_nonneg (hb.count_lt hl h₀)
  have huns : (s₁.clause c).unsatisfied = (s.clause c).unsatisfied :=
    congrArg Mark.unsatisfied r₁.mark
  have hfr : (s₁.clause c).inFringe = (s.clause c).inFringe := congrArg Mark.inFringe r₁.mark
  have hc₁ : c ∈ s₁.clauses := r₁.frame.clauses ▸ ha.1
  have hnew := hb.unassign_false hk.nodup hl h₀
  have hfringe : (s.clause c).inFringe = true ↔
    (s.clause c).satisfyingProp = none ∧ (s.clause c).numUnassigned = 1 := hb.fringe
  have hunsat : (s.clause c).unsatisfied = true ↔
    (s.clause c).satisfyingProp = none ∧ (s.clause c).numUnassigned = 0 := hb.unsatisfied
  unfold unassignOpposite
  rw [if_neg (by simp [ha.2]), h₁]
  simp only [bind, Except.bind, huns, hfr]
  split_ifs with hu hf
  · have hnone : (s.clause c).getSupports = none := by
      by_contra hne
      exact hsup hne (hunsat.mp hu).1
    have hf : (s.clause c).inFringe = false := by
      by_contra hf
      have := (hfringe.mp (by simpa using hf)).2
      have := (hunsat.mp hu).2
      omega
    obtain ⟨s₂, h₂, r₂⟩ := remarks_removeFromUnsat r₁.containers hc₁
    have r₃ := remarks_insertIntoFringe r₂.containers (c := c) (r₂.frame.clauses ▸ hc₁)
    refine ⟨_, _, r₁.trans (r₂.trans r₃), ?_, by rw [hnone, h₂]; rfl⟩
    rw [r₂.mark, r₁.mark]
    simpa [Clause.mark, hu] using hnew
  · have hnone : (s.clause c).getSupports = none := by
      by_contra hne
      exact hsup hne (hfringe.mp hf).1
    obtain ⟨s₂, h₂, r₂⟩ := remarks_removeFromFringe r₁.containers hc₁
    refine ⟨_, _, r₁.trans r₂, ?_, by rw [hnone, h₂]⟩
    rw [r₁.mark]
    simpa [Clause.mark, eq_false_of_ne_true hu] using hnew
  · refine ⟨_, _, r₁, ?_, ?_⟩
    · simpa [Clause.mark, eq_false_of_ne_true hu, eq_false_of_ne_true hf] using hnew
    · rw [r₁.frame.getSupports]
      cases (s.clause c).getSupports with
      | none => rfl
      | some q => exact setSupports_none s₁ c q

end

/-- A loop over clauses that takes the mark of each from one condition to another.
The clauses still to be visited meet the old one. -/
theorem marks_loop {B : ClauseId → Mark → Prop} (B' : ClauseId → Mark → Prop)
    {cs : List ClauseId} (body : Ltms → ClauseId → Except L2Error Ltms)
    (I : List ClauseId → Ltms → Prop)
    (hn : cs.Nodup)
    (hdel : ∀ s c, (s.clause c).deleted = true → body s c = .ok s)
    (hskip : ∀ c l s', s.Skeleton s' → (s.clause c).deleted = true → I (c :: l) s' → I l s')
    (hbody : ∀ c l s', c ∈ cs → s.Skeleton s' → I (c :: l) s' → s'.Containers → s.Active c →
      B c (s'.clause c).mark →
      ∃ s'', body s' c = .ok s'' ∧ I l s'' ∧ s'.Skeleton s'' ∧ s''.Containers ∧
        (∀ d, d ≠ c → (s''.clause d).mark = (s'.clause d).mark) ∧ B' c (s''.clause c).mark)
    (hI : I cs s) (hc : s.Containers) (hmem : ∀ c ∈ cs, c ∈ s.clauses) (hm : s.Marks B)
    (hout : ∀ c, s.Active c → c ∉ cs → ∀ m, B c m → B' c m) :
    ∃ s', cs.foldlM body s = .ok s' ∧ I [] s' ∧ s.Skeleton s' ∧ s'.Containers ∧ s'.Marks B' := by
  obtain ⟨s', hs', -, hI', hsk, hc', hm'⟩ := Loop.foldlM_rest (f := body)
    (fun l s' => l <:+ cs ∧ I l s' ∧ s.Skeleton s' ∧ s'.Containers ∧
      s'.Marks fun d m => if d ∈ l then B d m else B' d m)
    (fun c l s' h => by
      obtain ⟨hsuf, hI, hsk, hc, hm⟩ := h
      have hl : l <:+ cs := (List.suffix_cons c l).trans hsuf
      have hcl : c ∉ l := (List.nodup_cons.mp (hn.sublist hsuf.sublist)).1
      have hcc : c ∈ cs := hsuf.subset List.mem_cons_self
      have hB (d : ClauseId) (hd : d ≠ c) (m : Mark) (h : if d ∈ c :: l then B d m else B' d m) :
          if d ∈ l then B d m else B' d m := by simpa [hd] using h
      by_cases hd : (s'.clause c).deleted = true
      · refine ⟨s', hdel s' c hd, hl, hskip c l s' hsk (hsk.deleted c ▸ hd) hI, hsk, hc,
          fun d hda => hB d ?_ _ (hm.active d hda), hm.deleted⟩
        rintro rfl
        simp [hda.2] at hd
      · have ha : s.Active c := ⟨hmem c hcc, by rw [← hsk.deleted]; simpa using hd⟩
        have hb := hm.active c ((hsk.active c).mpr ha)
        simp only [List.mem_cons_self, if_true] at hb
        obtain ⟨s'', h₁, h₂, h₃, h₄, h₅, h₆⟩ := hbody c l s' hcc hsk hI hc ha hb
        refine ⟨s'', h₁, hl, h₂, hsk.trans h₃, h₄, ?_⟩
        refine hm.of_step h₃.toOutline ((hsk.active c).mpr ha) h₅ hB ?_
        simpa only [hcl, if_false] using h₆)
    cs s ⟨List.suffix_refl cs, hI, Skeleton.refl s, hc, fun c ha => by
      by_cases hcs : c ∈ cs
      · simpa only [hcs, if_true] using hm.active c ha
      · simpa only [hcs, if_false] using hout c ha hcs _ (hm.active c ha), hm.deleted⟩
  exact ⟨s', hs', hI', hsk, hc', by simpa using hm'⟩

end Ltms

end Livingstone
