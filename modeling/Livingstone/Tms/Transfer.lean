import Livingstone.Tms.Operations

/-! The transfer of clauses from one proposition to another. It rewrites the
literals, the back pointers and the satisfying proposition of the clauses it is
given, and counts the lost assignments; fringes and links stay as they are. -/

namespace Livingstone

open UnitProp (Literal)
open Function (update update_of_ne)

/-- `q`, or `new` in place of `old`. -/
def respell (old new q : PropId) : PropId := if q = old then new else q

section
variable {old new p q : PropId}

@[simp] theorem respell_old : respell old new old = new := if_pos rfl

theorem respell_of_ne (h : q ≠ old) : respell old new q = q := if_neg h

theorem map_respell_of_notMem {l : List PropId} (h : old ∉ l) : l.map (respell old new) = l := by
  refine (List.map_congr_left fun q hq => respell_of_ne ?_).trans (List.map_id' l)
  rintro rfl
  exact h hq

theorem map_respell_ne {o : Option PropId} (h : o ≠ some old) : o.map (respell old new) = o := by
  cases o with
  | none => rfl
  | some p =>
    rw [Option.map_some, respell_of_ne]
    rintro rfl
    exact h rfl

theorem mem_map_respell (hne : old ≠ new) {l : List PropId} (hnew : new ∉ l) :
    q ∈ l.map (respell old new) ↔ q ∈ l ∧ q ≠ old ∨ q = new ∧ old ∈ l := by
  rw [List.mem_map]
  constructor
  · rintro ⟨r, hr, rfl⟩
    by_cases hro : r = old
    · subst hro
      exact Or.inr ⟨respell_old, hr⟩
    · rw [respell_of_ne hro]
      exact Or.inl ⟨hr, hro⟩
  · rintro (⟨hq, hqo⟩ | ⟨rfl, hold⟩)
    · exact ⟨q, hq, respell_of_ne hqo⟩
    · exact ⟨old, hold, respell_old⟩

theorem nodup_map_respell {l : List PropId} (hn : l.Nodup) (hnew : new ∉ l) :
    (l.map (respell old new)).Nodup := by
  refine hn.map_on fun x hx y hy he => ?_
  have hxn : x ≠ new := fun h => hnew (h ▸ hx)
  have hyn : y ≠ new := fun h => hnew (h ▸ hy)
  unfold respell at he
  split_ifs at he with hxo hyo hyo
  · exact hxo.trans hyo.symm
  · exact absurd he.symm hyn
  · exact absurd he hxn
  · exact he

theorem set_eq_map_respell {l : List PropId} {i : ℕ} (hn : l.Nodup) (h : l[i]? = some old) :
    l.set i new = l.map (respell old new) := by
  apply List.ext_getElem?
  intro j
  rw [List.getElem?_set, List.getElem?_map]
  obtain ⟨hi, hget⟩ := List.getElem?_eq_some_iff.mp h
  split_ifs with hij
  · subst hij
    rw [h]
    simp
  · cases hj : l[j]? with
    | none => rfl
    | some q =>
      obtain ⟨hj', hgetj⟩ := List.getElem?_eq_some_iff.mp hj
      have hq : q ≠ old := by
        rintro rfl
        exact hij (hn.getElem_inj_iff.mp (hget.trans hgetj.symm))
      simp [respell_of_ne hq]

end

namespace Clause

variable {k : Clause} {old new p : PropId} {b : Bool}

/-- The propositions that occur with the sign `b`. -/
def part (k : Clause) (b : Bool) : List PropId := if b then k.positiveProps else k.negativeProps

theorem mem_lits : (p, b) ∈ k.lits ↔ p ∈ k.part b := by
  cases b <;> simp [lits, part]

theorem nodup_lits : k.lits.Nodup ↔ (k.part true).Nodup ∧ (k.part false).Nodup := by
  have hinj (b : Bool) : Function.Injective fun p : PropId => (p, b) := fun _ _ h =>
    congrArg Prod.fst h
  simp only [lits, part, List.nodup_append, List.nodup_map_iff (hinj _), if_true,
    Bool.false_eq_true, if_false]
  refine ⟨fun h => ⟨h.1, h.2.1⟩, fun h => ⟨h.1, h.2, ?_⟩⟩
  simp

/-- The indices of the literals with the sign `b`. -/
def indices (k : Clause) (b : Bool) : List ℕ :=
  if b then List.range k.numPosLits.toNat
  else List.range' k.numPosLits.toNat (k.numLits.toNat - k.numPosLits.toNat)

theorem nodup_indices (k : Clause) (b : Bool) : (k.indices b).Nodup := by
  cases b
  · exact List.nodup_range'
  · exact List.nodup_range

/-- The index in its part of the literal at `i`. -/
def offset (k : Clause) (b : Bool) : ℕ := if b then 0 else k.numPosLits.toNat

theorem mem_indices {i : ℕ} (h : ClauseShape k) :
    i ∈ k.indices b ↔ k.offset b ≤ i ∧ i - k.offset b < (k.part b).length := by
  have h₁ := h.numLits
  have h₂ := h.numPos_nonneg
  have h₃ := h.numPos_le
  cases b
  · simp only [indices, offset, part, negativeProps, Bool.false_eq_true, if_false, List.mem_range',
      List.length_drop, List.length_take, h₁, Int.toNat_natCast, min_self]
    constructor
    · rintro ⟨j, hj, rfl⟩
      omega
    · intro hi
      exact ⟨i - k.numPosLits.toNat, by omega, by omega⟩
  · simp only [indices, offset, part, positiveProps, if_true, List.mem_range, List.length_take]
    omega

theorem literals_eq (h : ClauseShape k) : k.literals = k.part true ++ k.part false := by
  have h₁ := h.numLits
  simp only [part, positiveProps, negativeProps, if_true, Bool.false_eq_true, if_false, h₁,
    Int.toNat_natCast, List.take_length, List.take_append_drop]

theorem length_part_true (h : ClauseShape k) : (k.part true).length = k.numPosLits.toNat := by
  have h₁ := h.numLits
  have h₂ := h.numPos_nonneg
  have h₃ := h.numPos_le
  simp only [part, positiveProps, if_true, List.length_take]
  omega

theorem getElem?_literals (h : ClauseShape k) {i : ℕ} (hi : i ∈ k.indices b) :
    k.literals[i]? = (k.part b)[i - k.offset b]? := by
  obtain ⟨hle, hlt⟩ := (mem_indices h).mp hi
  have hlen := length_part_true h
  rw [literals_eq h]
  cases b
  · simp only [offset, Bool.false_eq_true, if_false] at hle ⊢
    rw [List.getElem?_append_right (by omega), hlen]
  · simp only [offset, if_true, Nat.sub_zero] at hlt ⊢
    exact List.getElem?_append_left hlt

/-- `k` with `old` respelled among the literals of sign `b`. -/
def respellPart (k : Clause) (old new : PropId) (b : Bool) : Clause :=
  { k with literals :=
      if b then (k.part true).map (respell old new) ++ k.part false
      else k.part true ++ (k.part false).map (respell old new) }

theorem set_literals (h : ClauseShape k) {i : ℕ} (hi : i ∈ k.indices b)
    (hget : k.literals[i]? = some old) :
    { k with literals := k.literals.set i new } = k.respellPart old new b := by
  obtain ⟨hle, hlt⟩ := (mem_indices h).mp hi
  have hlen := length_part_true h
  obtain ⟨ht, hf⟩ := nodup_lits.mp h.nodup
  rw [getElem?_literals h hi] at hget
  unfold respellPart
  congr 1
  rw [literals_eq h]
  cases b
  · simp only [offset, Bool.false_eq_true, if_false] at hle hget ⊢
    rw [List.set_append_right _ _ (by omega), hlen, set_eq_map_respell hf hget]
  · simp only [offset, if_true, Nat.sub_zero] at hlt hget ⊢
    rw [List.set_append_left _ _ hlt, set_eq_map_respell ht hget]

theorem part_respellPart (h : ClauseShape k) (x : Bool) : (k.respellPart old new b).part x =
    if x = b then (k.part x).map (respell old new) else k.part x := by
  have hlen := length_part_true h
  have h₁ := h.numLits
  have hl := congrArg List.length (literals_eq h)
  rw [List.length_append] at hl
  have hl' : (k.respellPart old new b).literals.length = k.literals.length := by
    cases b <;> simp [respellPart, hl]
  have hp : (k.respellPart old new b).part true =
      (k.respellPart old new b).literals.take (k.part true).length := by
    rw [hlen]
    rfl
  have hn : (k.respellPart old new b).part false =
      (k.respellPart old new b).literals.drop (k.part true).length := by
    rw [hlen]
    change ((k.respellPart old new b).literals.take k.numLits.toNat).drop k.numPosLits.toNat = _
    rw [h₁, Int.toNat_natCast, ← hl', List.take_length]
  cases x
  · rw [hn]
    cases b
    · simp [respellPart]
    · simp only [respellPart, if_true, Bool.false_eq_true, if_false]
      rw [List.drop_left' (by simp)]
  · rw [hp]
    cases b
    · simp [respellPart]
    · simp only [respellPart, if_true]
      rw [List.take_left' (by simp)]

theorem shape_respellPart (h : ClauseShape k) (hnew : new ∉ k.part b) :
    ClauseShape (k.respellPart old new b) := by
  have hl := congrArg List.length (literals_eq h)
  rw [List.length_append] at hl
  have hl' : (k.respellPart old new b).literals.length = k.literals.length := by
    cases b <;> simp [respellPart, hl]
  obtain ⟨ht, hf⟩ := nodup_lits.mp h.nodup
  refine ⟨by rw [hl']; exact h.numLits, h.numPos_nonneg, h.numPos_le, by rw [hl']; exact h.bound,
    nodup_lits.mpr ?_⟩
  rw [part_respellPart h, part_respellPart h]
  cases b
  · exact ⟨ht, nodup_map_respell hf hnew⟩
  · exact ⟨nodup_map_respell ht hnew, hf⟩

end Clause

namespace Ltms

open Loop

-- the wrap of a counter is never computed here
attribute [local irreducible] lengthT

variable {s s' : Ltms} {c d : ClauseId} {old new p : PropId} {b : Bool}

theorem relinked_removeOccurrence (s : Ltms) (c : ClauseId) (l : Literal PropId) :
    s.Relinked (s.removeOccurrence c l) := by
  refine ⟨fun q => ?_, fun q => ?_, rfl⟩
  · by_cases hq : q = l.1
    · subst hq
      cases h : l.2 <;> simp [removeOccurrence, setProp, value, h]
    · simp [removeOccurrence, setProp, value, hq]
  · by_cases hq : q = l.1
    · subst hq
      cases h : l.2 <;> simp [removeOccurrence, setProp, h]
    · simp [removeOccurrence, setProp, hq]

theorem occurrences_removeOccurrence (s : Ltms) (c : ClauseId) (l : Literal PropId) (p : PropId)
    (b : Bool) : (s.removeOccurrence c l).occurrences p b =
      if (p, b) = l then
        match (s.occurrences p b).idxOf? c with
        | some i => SwapRemove.swapRemove (s.occurrences p b) i
        | none => s.occurrences p b
      else s.occurrences p b := by
  obtain ⟨q, x⟩ := l
  by_cases hq : p = q
  · subst hq
    -- the two lists of `p`, when the sign is the one of the literal and when it is not
    cases b <;> cases x
    · rw [if_pos rfl]
      exact congrArg Proposition.negative (Function.update_self p _ s.prop)
    · rw [if_neg (by simp)]
      simp [removeOccurrence, occurrences, setProp]
    · rw [if_neg (by simp)]
      simp [removeOccurrence, occurrences, setProp]
    · rw [if_pos rfl]
      exact congrArg Proposition.positive (Function.update_self p _ s.prop)
  · simp [removeOccurrence, occurrences, setProp, hq]

theorem removeOccurrence_spec (hn : (s.occurrences p b).Nodup) (l : Literal PropId) :
    ((s.removeOccurrence c l).occurrences p b).Nodup ∧
      ∀ d, d ∈ (s.removeOccurrence c l).occurrences p b ↔
        d ∈ s.occurrences p b ∧ ((p, b) = l → d ≠ c) := by
  rw [occurrences_removeOccurrence]
  split_ifs with hl
  · split
    · rename_i i hi
      obtain ⟨hlt, hget, -⟩ := List.idxOf?_eq_some_iff.mp hi
      refine ⟨SwapRemove.nodup hlt hn, fun d => ?_⟩
      rw [SwapRemove.mem_iff hlt hn, hget]
      exact and_congr_right fun _ => ⟨fun hd _ => hd, fun hd => hd hl⟩
    · rename_i hi
      refine ⟨hn, fun d => ⟨fun hd => ⟨hd, ?_⟩, fun hd => hd.1⟩⟩
      rintro - rfl
      exact absurd (List.isSome_idxOf?.mpr hd) (by simp [hi])
  · exact ⟨hn, fun d => ⟨fun hd => ⟨hd, fun h => absurd h hl⟩, And.left⟩⟩

/-- The clause `c` was rewritten to `k`, and the back pointers follow. -/
structure Rewritten (c : ClauseId) (k : Clause) (s s' : Ltms) : Prop where
  wf : s'.WellFormed
  value : ∀ p, s'.value p = s.value p
  supportedBy : ∀ p, (s'.prop p).supportedBy = (s.prop p).supportedBy
  clause : s'.clause = update s.clause c k
  rest : { s' with prop := s.prop, clause := s.clause } = s

theorem Rewritten.trans {k k' : Clause} {s'' : Ltms} (h : Rewritten c k s s')
    (h' : Rewritten c k' s' s'') : Rewritten c k' s s'' := by
  refine ⟨h'.wf, fun p => (h'.value p).trans (h.value p),
    fun p => (h'.supportedBy p).trans (h.supportedBy p), ?_, ?_⟩
  · rw [h'.clause, h.clause, Function.update_idem]
  · conv_rhs => rw [← h.rest, ← h'.rest]

theorem Rewritten.refl (hw : s.WellFormed) (c : ClauseId) : Rewritten c (s.clause c) s s :=
  ⟨hw, fun _ => rfl, fun _ => rfl, (Function.update_eq_self c s.clause).symm, rfl⟩

theorem Rewritten.set {k k' : Clause} (h : Rewritten c k s s') (hl : k'.literals = k.literals)
    (hn : k'.numLits = k.numLits) (hp : k'.numPosLits = k.numPosLits) :
    Rewritten c k' s (s'.setClause c k') := by
  have hget : s'.clause c = k := by rw [h.clause, Function.update_self]
  refine ⟨h.wf.setClause (hget ▸ hl) (hget ▸ hn) (hget ▸ hp), h.value, h.supportedBy, ?_, h.rest⟩
  change update s'.clause c k' = _
  rw [h.clause, Function.update_idem]

/-- The two updates of the back pointers after the literal of `old` was rewritten. -/
theorem rewritten_relink {k : Clause} (hw : s.WellFormed) (hc : c ∈ s.clauses)
    (hk : s.clause c = k) (hne : old ≠ new) (hnew : new ∈ s.props) (hold : old ∈ k.part b)
    (hfresh : new ∉ k.part b) :
    Rewritten c (k.respellPart old new b) s
      (((s.setClause c (k.respellPart old new b)).addOccurrence c (new, b)).removeOccurrence c
        (old, b)) := by
  subst hk
  have hshape := hw.shape c hc
  set k := s.clause c with hk
  set k' := k.respellPart old new b
  set s₁ := (s.setClause c k').addOccurrence c (new, b)
  have hr : (s.setClause c k').Relinked (s₁.removeOccurrence c (old, b)) :=
    (relinked_addOccurrence _ c _).trans (relinked_removeOccurrence s₁ c _)
  have hnotin : c ∉ s.occurrences new b := by
    rw [hw.mem_occurrences, Clause.mem_lits]
    exact fun h => hfresh h.2
  have hadd (p : PropId) (x : Bool) : s₁.occurrences p x =
      s.occurrences p x ++ if (p, x) = (new, b) then [c] else [] :=
    occurrences_addOccurrence _ c _ p x
  have hnodup (p : PropId) (x : Bool) : (s₁.occurrences p x).Nodup := by
    rw [hadd]
    split_ifs with he
    · obtain ⟨rfl, rfl⟩ := Prod.mk.inj he
      simpa using (hw.occurs_nodup p x).concat hnotin
    · simpa using hw.occurs_nodup p x
  have hself : (s₁.removeOccurrence c (old, b)).clause c = k' := by
    rw [hr.clause, setClause_same]
  have hother {d : ClauseId} (hd : d ≠ c) :
      (s₁.removeOccurrence c (old, b)).clause d = s.clause d := by
    rw [hr.clause, setClause_ne _ _ hd]
  have hpart (q : PropId) (x : Bool) : q ∈ k'.part x ↔
      (q ∈ k.part x ∧ (q, x) ≠ (old, b)) ∨ (q, x) = (new, b) := by
    rw [Clause.part_respellPart hshape]
    by_cases hx : x = b
    · subst hx
      rw [if_pos rfl, mem_map_respell hne hfresh]
      simp [hold]
    · simp [hx]
  refine ⟨⟨?_, ?_, ?_, ?_, fun d hd => ?_, fun d hd => ?_, fun d q x => ?_, fun q x => ?_⟩,
    fun q => hr.value q, fun q => hr.supportedBy q, hr.clause, ?_⟩
  · rw [hr.props]
    exact hw.props_nodup
  · rw [hr.clauses]
    exact hw.clauses_nodup
  · rw [hr.props, hr.nextProp]
    exact hw.prop_lt
  · rw [hr.clauses, hr.nextClause]
    exact hw.clause_lt
  · by_cases hdc : d = c
    · rw [hdc, hself]
      exact Clause.shape_respellPart hshape hfresh
    · rw [hother hdc]
      exact hw.shape d (hr.clauses ▸ hd)
  · rw [hr.props]
    rintro ⟨q, x⟩ hl
    by_cases hdc : d = c
    · rw [hdc, hself, Clause.mem_lits, hpart] at hl
      rcases hl with ⟨hl, -⟩ | hl
      · exact hw.lits_props c hc (q, x) (Clause.mem_lits.mpr hl)
      · exact (Prod.mk.inj hl).1 ▸ hnew
    · rw [hother hdc] at hl
      exact hw.lits_props d (hr.clauses ▸ hd) _ hl
  · rw [(removeOccurrence_spec (hnodup q x) (old, b)).2, hadd, List.mem_append,
      hw.mem_occurrences, hr.clauses]
    by_cases hdc : d = c
    · subst hdc
      rw [hself, Clause.mem_lits, Clause.mem_lits, hpart]
      have hneq : (new, b) ≠ (old, b) := fun h => hne (Prod.mk.inj h).1.symm
      by_cases he : (q, x) = (new, b)
      · simp [he, hneq, hc, show d ∈ (s.setClause d k').clauses from hc]
      · simp [he, hc, show d ∈ (s.setClause d k').clauses from hc, ← hk]
    · rw [hother hdc]
      have : d ∉ (if (q, x) = (new, b) then [c] else []) := by
        split_ifs <;> simp [hdc]
      simp only [this, or_false, ne_eq, hdc, not_false_eq_true, implies_true, and_true]
      rfl
  · exact (removeOccurrence_spec (hnodup q x) (old, b)).1
  · exact congrArg (fun t : Ltms => { t with prop := s.prop, clause := s.clause }) hr.rest

theorem incrNumUnassigned_returns (h0 : 0 ≤ (s.clause c).numUnassigned)
    (hb : (s.clause c).numLits ≤ 127) :
    ReturnsIff (s.incrNumUnassigned c) ((s.clause c).numUnassigned < (s.clause c).numLits)
      fun s' => s' = s.setClause c
        { s.clause c with numUnassigned := (s.clause c).numUnassigned + 1 } := by
  unfold Ltms.incrNumUnassigned Clause.incrNumUnassigned
  by_cases hlt : (s.clause c).numUnassigned < (s.clause c).numLits
  · rw [if_pos hlt, lengthT_of_le (by omega) (by omega)]
    exact ⟨hlt, rfl⟩
  · rw [if_neg hlt]
    exact hlt

/-- What the counter of a clause gains when its literal of `old` with the sign `b` is
transferred. -/
def gain (losing : Bool) (old : PropId) (b : Bool) (k : Clause) : ℤ :=
  if losing ∧ old ∈ k.part b then 1 else 0

theorem transferLiteral_skip {losing : Bool} {i : ℕ} (h : (s.clause c).literals[i]? ≠ some old) :
    transferLiteral old new losing b c s i = .ok s := by
  simp only [transferLiteral, if_neg h]

theorem transferLiteral_returns (losing : Bool) {k : Clause} {i : ℕ} (hw : s.WellFormed)
    (hc : c ∈ s.clauses) (hk : s.clause c = k) (hne : old ≠ new) (hnew : new ∈ s.props)
    (hold : old ∈ k.part b) (hfresh : new ∉ k.part b) (h0 : 0 ≤ k.numUnassigned)
    (hi : i ∈ k.indices b) (hhit : k.literals[i]? = some old) :
    ReturnsIff (transferLiteral old new losing b c s i)
      (losing = true → old ∈ k.part b → k.numUnassigned < k.numLits)
      (Rewritten c { k.respellPart old new b with
        numUnassigned := k.numUnassigned + gain losing old b k } s) := by
  have hshape : ClauseShape k := hk ▸ hw.shape c hc
  have hrw := rewritten_relink hw hc hk hne hnew hold hfresh
  have hset : ({ s.clause c with literals := (s.clause c).literals.set i new } : Clause) =
      k.respellPart old new b := by
    rw [hk]
    exact Clause.set_literals hshape hi hhit
  simp only [transferLiteral]
  rw [if_pos (hk ▸ hhit), hset]
  generalize ((s.setClause c (k.respellPart old new b)).addOccurrence c
    (new, b)).removeOccurrence c (old, b) = t at hrw ⊢
  have hself : t.clause c = k.respellPart old new b := by
    rw [hrw.clause, Function.update_self]
  cases losing with
  | false =>
    rw [if_neg (by simp)]
    refine ⟨by simp, ?_⟩
    have hgain : gain false old b k = 0 := if_neg (by simp)
    rw [hgain, add_zero]
    exact hrw
  | true =>
    rw [if_pos rfl]
    have hgain : gain true old b k = 1 := if_pos ⟨rfl, hold⟩
    refine (incrNumUnassigned_returns (s := t) (c := c) (by rw [hself]; exact h0) ?_).congr
      ?_ ?_
    · rw [hself]
      have h₁ := hshape.numLits
      have h₂ := hshape.bound
      change k.numLits ≤ 127
      omega
    · rw [hself]
      exact ⟨fun h _ _ => h, fun h => h rfl hold⟩
    · rintro s' - rfl
      rw [hself, hgain]
      exact hrw.set rfl rfl rfl

theorem Clause.respellPart_ne_old {k : Clause} {i : ℕ} (hshape : ClauseShape k) (hne : old ≠ new)
    (hfresh : new ∉ k.part b) (hi : i ∈ k.indices b) :
    (k.respellPart old new b).literals[i]? ≠ some old := by
  intro h
  have hshape' : ClauseShape (k.respellPart old new b) := Clause.shape_respellPart hshape hfresh
  have hlen : ((k.respellPart old new b).part b).length = (k.part b).length := by
    rw [Clause.part_respellPart hshape, if_pos rfl, List.length_map]
  rw [Clause.getElem?_literals (b := b) hshape' hi] at h
  have hmem := List.mem_of_getElem? h
  rw [Clause.part_respellPart hshape, if_pos rfl, mem_map_respell hne hfresh] at hmem
  rcases hmem with hmem | hmem
  · exact hmem.2 rfl
  · exact hne hmem.1

theorem Clause.respellPart_of_notMem {k : Clause} (hshape : ClauseShape k) (hold : old ∉ k.part b) :
    k.respellPart old new b = k := by
  unfold Clause.respellPart
  have hl := Clause.literals_eq hshape
  cases b
  · simp only [Bool.false_eq_true, if_false, map_respell_of_notMem hold, ← hl]
  · simp only [if_true, map_respell_of_notMem hold, ← hl]

theorem transferPart_returns (losing : Bool) {k : Clause} (hw : s.WellFormed) (hc : c ∈ s.clauses)
    (hk : s.clause c = k) (hne : old ≠ new) (hnew : new ∈ s.props)
    (hfresh : old ∈ k.part b → new ∉ k.part b) (h0 : 0 ≤ k.numUnassigned) :
    ReturnsIff ((k.indices b).foldlM (transferLiteral old new losing b c) s)
      (losing = true → old ∈ k.part b → k.numUnassigned < k.numLits)
      (Rewritten c { k.respellPart old new b with
        numUnassigned := k.numUnassigned + gain losing old b k } s) := by
  have hshape : ClauseShape k := hk ▸ hw.shape c hc
  have hnodup := Clause.nodup_lits.mp hshape.nodup
  have hpart : (k.part b).Nodup := by
    cases b
    · exact hnodup.2
    · exact hnodup.1
  by_cases hold : old ∈ k.part b
  · replace hfresh := hfresh hold
    obtain ⟨j, hj, hget⟩ := List.mem_iff_getElem.mp hold
    have hi : k.offset b + j ∈ k.indices b := by
      rw [Clause.mem_indices hshape]
      omega
    have hat {i : ℕ} (hi' : i ∈ k.indices b) (hold : k.literals[i]? = some old) :
        i = k.offset b + j := by
      rw [Clause.getElem?_literals hshape hi', List.getElem?_eq_some_iff] at hold
      obtain ⟨hlt, hget'⟩ := hold
      have := hpart.getElem_inj_iff.mp (hget'.trans hget.symm)
      have := ((Clause.mem_indices hshape).mp hi').1
      omega
    have hhit : k.literals[k.offset b + j]? = some old := by
      rw [Clause.getElem?_literals hshape hi, Nat.add_sub_cancel_left,
        List.getElem?_eq_getElem hj, hget]
    have hturn := transferLiteral_returns losing hw hc hk hne hnew hold hfresh h0 hi hhit
    rw [foldlM_once (Clause.nodup_indices k b) hi]
    · exact hturn
    · intro i hi' hne'
      exact transferLiteral_skip fun h => hne' (hat hi' (hk ▸ h))
    · intro s' hs' i hi' hne'
      refine transferLiteral_skip fun h => ?_
      have hcl := (hturn.of_eq hs').2.clause
      rw [hcl, Function.update_self] at h
      exact Clause.respellPart_ne_old hshape hne hfresh hi' h
  · rw [foldlM_skip]
    · refine ⟨fun _ h => absurd h hold, ?_⟩
      have hgain : gain losing old b k = 0 := if_neg fun h => hold h.2
      rw [hgain, add_zero, Clause.respellPart_of_notMem hshape hold]
      exact hk ▸ Rewritten.refl hw c
    · intro i hi
      refine transferLiteral_skip fun h => hold ?_
      rw [hk, Clause.getElem?_literals hshape hi] at h
      exact List.mem_of_getElem? h

/-- The effect of a transfer on a clause. -/
def respelled (losing : Bool) (old new : PropId) (k : Clause) : Clause :=
  { k with
    literals := k.literals.map (respell old new)
    numUnassigned := k.numUnassigned + (gain losing old true k + gain losing old false k)
    satisfyingProp := k.satisfyingProp.map (respell old new) }

theorem part_respelled (losing : Bool) (old new : PropId) (k : Clause) (b : Bool) :
    (respelled losing old new k).part b = (k.part b).map (respell old new) := by
  cases b
  · simp only [respelled, Clause.part, Clause.negativeProps, List.map_drop, List.map_take,
      Bool.false_eq_true, if_false]
  · simp only [respelled, Clause.part, Clause.positiveProps, List.map_take, if_true]

theorem gain_nonneg (losing : Bool) (old : PropId) (b : Bool) (k : Clause) :
    0 ≤ gain losing old b k := by
  unfold gain
  split_ifs <;> simp

theorem gain_of_notMem {losing : Bool} {k : Clause} (h : old ∉ k.part b) : gain losing old b k = 0 :=
  if_neg fun h' => h h'.2

theorem respelled_of_notMem {losing : Bool} {k : Clause} (h : ClauseShape k) (hold : ∀ b, old ∉ k.part b)
    (hsat : k.satisfyingProp ≠ some old) : respelled losing old new k = k := by
  have hlit : k.literals.map (respell old new) = k.literals := by
    refine map_respell_of_notMem ?_
    rw [Clause.literals_eq h, List.mem_append]
    exact fun hm => hm.elim (hold true) (hold false)
  unfold respelled
  rw [hlit, map_respell_ne hsat, gain_of_notMem (hold true), gain_of_notMem (hold false), add_zero, add_zero]

/-- The counter of a clause that loses assignments has room for them. -/
def Room (losing : Bool) (old : PropId) (k : Clause) : Prop :=
  losing = true → (∃ b, old ∈ k.part b) →
    k.numUnassigned + (gain losing old true k + gain losing old false k) ≤ k.numLits

theorem transferClause_returns (losing : Bool) {k : Clause} (hw : s.WellFormed) (hc : c ∈ s.clauses)
    (hk : s.clause c = k) (hne : old ≠ new) (hnew : new ∈ s.props)
    (hfresh : ∀ b, old ∈ k.part b → new ∉ k.part b) (h0 : 0 ≤ k.numUnassigned) :
    ReturnsIff (transferClause old new losing s c) (Room losing old k)
      (Rewritten c (respelled losing old new k) s) := by
  have hshape : ClauseShape k := hk ▸ hw.shape c hc
  set k₁ := { k.respellPart old new true with
    numUnassigned := k.numUnassigned + gain losing old true k } with hk₁
  have hpart (x : Bool) : k₁.part x =
      if x = true then (k.part x).map (respell old new) else k.part x := by
    change (k.respellPart old new true).part x = _
    exact Clause.part_respellPart hshape x
  have hgain : gain losing old false k₁ = gain losing old false k := by
    simp only [gain, hpart, Bool.false_eq_true, if_false]
  set k₂ := { k₁.respellPart old new false with
    numUnassigned := k₁.numUnassigned + gain losing old false k₁ } with hk₂
  have hlits : k₂.literals = k.literals.map (respell old new) := by
    change k₁.part true ++ (k₁.part false).map (respell old new) = _
    rw [hpart, hpart, if_pos rfl, if_neg (by simp), ← List.map_append, ← Clause.literals_eq hshape]
  have hnum : k₂.numUnassigned =
      k.numUnassigned + (gain losing old true k + gain losing old false k) := by
    change k.numUnassigned + gain losing old true k + gain losing old false k₁ = _
    rw [hgain, add_assoc]
  have hfirst := transferPart_returns losing hw hc hk hne hnew (hfresh true) h0
  have hgt := gain_nonneg losing old true k
  have hloops : ReturnsIff
      ((k.indices true).foldlM (transferLiteral old new losing true c) s >>= fun s =>
        (k.indices false).foldlM (transferLiteral old new losing false c) s)
      ((losing = true → old ∈ k.part true → k.numUnassigned < k.numLits) ∧
        (losing = true → old ∈ k.part false →
          k.numUnassigned + gain losing old true k < k.numLits)) (Rewritten c k₂ s) := by
    refine hfirst.bind fun s₁ _ h₁ => ?_
    have hk₁' : s₁.clause c = k₁ := by rw [h₁.clause, Function.update_self]
    have hsecond := transferPart_returns (b := false) losing h₁.wf
      (show c ∈ s₁.clauses from (congrArg (·.clauses) h₁.rest : s₁.clauses = s.clauses) ▸ hc)
      hk₁' hne ((congrArg (·.props) h₁.rest : s₁.props = s.props) ▸ hnew)
      (by rw [hpart]; exact hfresh false) (by change 0 ≤ k.numUnassigned + _; omega)
    refine hsecond.congr ?_ fun s₂ _ h₂ => h₁.trans h₂
    rw [hpart]
    rfl
  have hroom : ((losing = true → old ∈ k.part true → k.numUnassigned < k.numLits) ∧
      (losing = true → old ∈ k.part false →
        k.numUnassigned + gain losing old true k < k.numLits)) ↔ Room losing old k := by
    by_cases hl : losing = true
    · by_cases ht : old ∈ k.part true
      · by_cases hf : old ∈ k.part false
        · simp [Room, gain, hl, ht, hf]
          omega
        · simp [Room, gain, hl, ht, hf]
      · by_cases hf : old ∈ k.part false
        · simp [Room, gain, hl, ht, hf]
        · simp [Room, gain, hl, ht, hf]
    · simp [Room, hl]
  have hloops := hloops.congr hroom fun _ _ h => h
  have hbody : transferClause old new losing s c =
      ((k.indices true).foldlM (transferLiteral old new losing true c) s >>= fun s =>
        (k.indices false).foldlM (transferLiteral old new losing false c) s) >>= fun s =>
      if (s.clause c).satisfyingProp = some old then .ok (s.setSatisfyingProp c (some new))
      else .ok s := by
    rw [bind_assoc]
    simp only [transferClause, hk]
    rfl
  rw [hbody]
  have hlast (s₂ : Ltms) (h₂ : Rewritten c k₂ s s₂) : ReturnsIff
      (if (s₂.clause c).satisfyingProp = some old then
        (.ok (s₂.setSatisfyingProp c (some new)) : Except L2Error Ltms) else .ok s₂) True
      (Rewritten c (respelled losing old new k) s) := by
    have hself : s₂.clause c = k₂ := by rw [h₂.clause, Function.update_self]
    have heq : respelled losing old new k =
        { k₂ with satisfyingProp := k.satisfyingProp.map (respell old new) } := by
      unfold respelled
      rw [← hlits, ← hnum]
      rfl
    rw [hself, heq]
    split_ifs with hold
    · replace hold : k.satisfyingProp = some old := hold
      refine ⟨trivial, ?_⟩
      unfold setSatisfyingProp
      rw [hself, hold, Option.map_some, respell_old]
      exact h₂.set rfl rfl rfl
    · replace hold : k.satisfyingProp ≠ some old := hold
      rw [map_respell_ne hold]
      exact ⟨trivial, h₂⟩
  exact (hloops.bind fun s₂ _ h₂ => hlast s₂ h₂).congr (and_iff_left trivial) fun _ _ h => h

/-- The clauses of `moved` were respelled, and the back pointers follow. -/
structure Transferred (losing : Bool) (old new : PropId) (moved : List ClauseId)
    (s s' : Ltms) : Prop where
  wf : s'.WellFormed
  value : ∀ p, s'.value p = s.value p
  supportedBy : ∀ p, (s'.prop p).supportedBy = (s.prop p).supportedBy
  clause : ∀ d, s'.clause d =
    if d ∈ moved then respelled losing old new (s.clause d) else s.clause d
  rest : { s' with prop := s.prop, clause := s.clause } = s

theorem notMem_part_respelled {losing : Bool} (hne : old ≠ new) (k : Clause) (b : Bool) :
    old ∉ (respelled losing old new k).part b := by
  rw [part_respelled, List.mem_map]
  rintro ⟨q, -, hq⟩
  unfold respell at hq
  split_ifs at hq with h
  · exact hne hq.symm
  · exact h hq

theorem satisfyingProp_respelled_ne {losing : Bool} (hne : old ≠ new) (k : Clause) :
    (respelled losing old new k).satisfyingProp ≠ some old := by
  simp only [respelled, Ne, Option.map_eq_some_iff, not_exists, not_and]
  intro q _ hq
  unfold respell at hq
  split_ifs at hq with h
  · exact hne hq.symm
  · exact h hq

/-- The literals that a transfer rewrites are not there already, and the counters are
not negative. -/
structure Transferable (old new : PropId) (moved : List ClauseId) (s : Ltms) : Prop where
  mem : ∀ c ∈ moved, c ∈ s.clauses
  fresh : ∀ c ∈ moved, ∀ b, old ∈ (s.clause c).part b → new ∉ (s.clause c).part b
  nonneg : ∀ c ∈ moved, 0 ≤ (s.clause c).numUnassigned

theorem transferClauses_returns (losing : Bool) {moved : List ClauseId} (hw : s.WellFormed)
    (h : s.Transferable old new moved) (hne : old ≠ new) (hnew : new ∈ s.props) :
    ReturnsIff (s.transferClauses old new moved losing)
      (∀ c ∈ moved, Room losing old (s.clause c)) (Transferred losing old new moved s) := by
  induction moved generalizing s with
  | nil => exact ⟨by simp, hw, fun _ => rfl, fun _ => rfl, fun d => by simp, rfl⟩
  | cons c moved ih =>
    have hc := h.mem c List.mem_cons_self
    have hhead := transferClause_returns losing hw hc rfl hne hnew
      (h.fresh c List.mem_cons_self) (h.nonneg c List.mem_cons_self)
    rw [List.forall_mem_cons]
    refine (hhead.bind fun s₁ hroom h₁ => ?_)
    have hself : s₁.clause c = respelled losing old new (s.clause c) := by
      rw [h₁.clause, Function.update_self]
    have hother {d : ClauseId} (hd : d ≠ c) : s₁.clause d = s.clause d := by
      rw [h₁.clause, update_of_ne hd]
    have hclauses : s₁.clauses = s.clauses := congrArg (·.clauses) h₁.rest
    have hprops : s₁.props = s.props := congrArg (·.props) h₁.rest
    have hgain (b : Bool) := gain_nonneg losing old b (s.clause c)
    have htail : s₁.Transferable old new moved := by
      refine ⟨fun d hd => ?_, fun d hd b => ?_, fun d hd => ?_⟩
      · exact hclauses ▸ h.mem d (List.mem_cons_of_mem c hd)
      · by_cases hdc : d = c
        · rw [hdc, hself]
          exact fun hold => absurd hold (notMem_part_respelled hne _ b)
        · rw [hother hdc]
          exact h.fresh d (List.mem_cons_of_mem c hd) b
      · by_cases hdc : d = c
        · have h0 := h.nonneg c List.mem_cons_self
          have ht := hgain true
          have hf := hgain false
          rw [hdc, hself]
          change 0 ≤ (s.clause c).numUnassigned + _
          omega
        · rw [hother hdc]
          exact h.nonneg d (List.mem_cons_of_mem c hd)
    refine (ih h₁.wf htail (hprops ▸ hnew)).congr ?_ fun s' _ h' => ?_
    · refine forall₂_congr fun d hd => ?_
      by_cases hdc : d = c
      · -- a clause that comes again has no literal left to rewrite
        rw [hdc, hself]
        refine iff_of_true ?_ hroom
        rintro - ⟨b, hold⟩
        exact absurd hold (notMem_part_respelled hne _ b)
      · rw [hother hdc]
    · refine ⟨h'.wf, fun p => (h'.value p).trans (h₁.value p),
        fun p => (h'.supportedBy p).trans (h₁.supportedBy p), fun d => ?_, ?_⟩
      · rw [h'.clause]
        by_cases hdc : d = c
        · subst hdc
          have hagain : respelled losing old new (s₁.clause d) = s₁.clause d := by
            refine respelled_of_notMem (h₁.wf.shape d (hclauses ▸ hc)) ?_ ?_
            · rw [hself]
              exact notMem_part_respelled hne _
            · rw [hself]
              exact satisfyingProp_respelled_ne hne _
          rw [hagain, ite_self, hself, if_pos List.mem_cons_self]
        · simp only [hother hdc, List.mem_cons, hdc, false_or]
      · conv_rhs => rw [← h₁.rest, ← h'.rest]

end Ltms

end Livingstone
