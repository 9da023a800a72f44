import Livingstone.Lib.Blocks
import Livingstone.Proofs.WrittenBytes
import Livingstone.Readers.Copies
import Livingstone.Readers.SortProps

/-! Sorting the propositions of a model puts each of them into its block, and the clauses follow
them there. -/

namespace Livingstone.SortProps

open Loop Translation ToBin

variable {f : L2File} {t t' : Translation} {a : ℕ → ℕ} {s : Sorting} {p : L2rProposition}
  {xs ys : List L2rProposition}

def blocks : List Block := [.positive, .negative, .same, .different]

theorem mem_blocks (b : Block) : b ∈ blocks := by
  cases b <;> decide

theorem nodup_blocks : blocks.Nodup := by decide

def counts (ps : List L2rProposition) : PropCounts :=
  ⟨ps.countP (block · = .positive), ps.countP (block · = .negative),
    ps.countP (block · = .same), ps.countP (block · = .different)⟩

/-- The block of the propositions of this sign and form. -/
def blockOf : Bool → Bool → Block
  | true, false => .positive
  | false, false => .negative
  | true, true => .same
  | false, true => .different

theorem block_eq_iff {positive equality : Bool} :
    block p = blockOf positive equality ↔ p.isPositive = positive ∧ p.isEquality = equality := by
  unfold block
  cases p.isPositive <;> cases p.isEquality <;> cases positive <;> cases equality <;> decide

theorem decide_block (p : L2rProposition) (positive equality : Bool) :
    (p.isPositive == positive && p.isEquality == equality) =
      decide (block p = blockOf positive equality) := by
  rw [Bool.eq_iff_iff, decide_eq_true_eq, block_eq_iff]
  simp

theorem length_eq_counts (ps : List L2rProposition) : ps.length = (counts ps).npos +
    (counts ps).nneg + (counts ps).nsame + (counts ps).ndiff := by
  have hperm : (Blocks.sorted block blocks ps).Perm ps :=
    Blocks.perm_sorted nodup_blocks fun p _ => mem_blocks (block p)
  rw [← hperm.length_eq]
  simp [Blocks.sorted, blocks, counts, List.countP_eq_length_filter]
  omega

theorem countProps_counts (f : L2File) : countProps f = .ok (counts f.props) := by
  unfold countProps
  simp only [decide_block]
  exact if_pos (length_eq_counts f.props)

theorem firstIndex_eq (ps : List L2rProposition) (b : Block) : firstIndex (counts ps) b =
    Blocks.start (fun b => ps.countP fun p => block p = b) blocks b := by
  cases b <;> simp [firstIndex, counts, Blocks.start, blocks, Nat.add_assoc]

theorem positive_make (v w : ℕ) (positive : Bool) :
    (L2rPropVarVar.make v positive w).positive = positive := by
  unfold L2rPropVarVar.make
  split <;> rfl

theorem block_made (p : L2rProposition) : block (made p) = block p := by
  cases p with
  | varVar p =>
    have hpos : (made (.varVar p)).isPositive = (L2rProposition.varVar p).isPositive :=
      positive_make p.var p.otherVar p.positive
    have heq : (made (.varVar p)).isEquality = (L2rProposition.varVar p).isEquality := rfl
    unfold block
    rw [heq, hpos]
  | varValue p => rfl

theorem counts_copies {ps qs : List L2rProposition} (h : qs.Perm (ps.map made)) :
    counts qs = counts ps := by
  simp [counts, h.countP_eq, List.countP_map, Function.comp_def, block_made]

/-- The propositions `xs` are in their places, and `ys` are to come. -/
structure Placed (t : Translation) (xs ys : List L2rProposition) (s : Sorting) : Prop where
  array : s.array = Blocks.filled block blocks made xs ys
  index : ∀ b, s.index b = Blocks.start (fun b => (xs ++ ys).countP fun p => block p = b) blocks b +
    xs.countP fun p => block p = b
  translation : s.translation = { t with props := s.translation.props }
  mapped : ∀ i p, xs[i]? = some p → ∃ j, s.translation.props.getDestination i = some j ∧
    s.array[j]? = some (some (made p))
  unmapped : ∀ i, xs.length ≤ i → s.translation.props.getDestination i = none
  injective : ∀ i j k, s.translation.props.getDestination i = some k →
    s.translation.props.getDestination j = some k → i = j

theorem index_succ (ps : List L2rProposition) (b : Block)
    (h : s.index b = Blocks.start (fun b => ps.countP fun p => block p = b) blocks b +
      xs.countP fun p => block p = b) (p : L2rProposition) :
    Function.update s.index (block p) (s.index (block p) + 1) b =
      Blocks.start (fun b => ps.countP fun p => block p = b) blocks b +
        (xs ++ [p]).countP fun p => block p = b := by
  rw [List.countP_append]
  by_cases hb : b = block p
  · subst hb
    rw [Function.update_self, h]
    simp [Nat.add_assoc]
  · have hb' : ¬ block p = b := Ne.symm hb
    rw [Function.update_of_ne hb, h]
    simp [hb']

namespace Placed

theorem lt_length (h : Placed t xs ys s) {i j : ℕ}
    (hij : s.translation.props.getDestination i = some j) : i < xs.length := by
  by_contra hi
  exact Option.some_ne_none j (hij.symm.trans (h.unmapped i (not_lt.mp hi)))

theorem ne_of_free (h : Placed t xs ys s) {i j k : ℕ}
    (hij : s.translation.props.getDestination i = some j) (hk : s.array[k]? = some none) :
    j ≠ k := by
  rintro rfl
  obtain ⟨j', hj', hsome⟩ := h.mapped i _ (List.getElem?_eq_getElem (h.lt_length hij))
  obtain rfl := Option.some.inj (hij.symm.trans hj')
  rw [hk] at hsome
  cases hsome

theorem turn (h : Placed t xs (p :: ys) s) (hcopy : copyProp t.vars p = .ok (made p)) :
    ∃ s', copyPropTurn s (p, xs.length) = .ok s' ∧ Placed t (xs ++ [p]) ys s' := by
  have hplace : s.index (block p) = Blocks.place block blocks (xs ++ p :: ys) xs p :=
    h.index (block p)
  have hfree : s.array[s.index (block p)]? = some none := by
    rw [h.array, hplace]
    exact Blocks.getElem?_place made xs ys (mem_blocks (block p))
  have hlt := (List.getElem?_eq_some_iff.mp hfree).1
  have hbounds : boundsCheckAccess (s.index (block p)) s.array "propositions" = .ok none :=
    boundsCheckAccess_eq_ok.mpr hfree
  have hadd := Mapping.addMapping_new (h.unmapped xs.length le_rfl) (s.index (block p))
  have hvars : s.translation.vars = t.vars := by
    rw [h.translation]
  refine ⟨⟨{ s.translation with props := (xs.length, s.index (block p)) :: s.translation.props },
    s.array.set (s.index (block p)) (some (made p)),
    Function.update s.index (block p) (s.index (block p) + 1)⟩, ?_, ?_⟩
  · unfold copyPropTurn
    simp only [hvars, hcopy, hadd, hbounds, bind, Except.bind, pure, Except.pure]
  refine ⟨?_, fun b => ?_, ?_, fun i q hq => ?_, fun i hi => ?_, fun i j k hi hj => ?_⟩
  · rw [h.array, hplace]
    exact Blocks.set_filled made xs ys nodup_blocks (mem_blocks (block p))
  · rw [List.append_assoc]
    exact index_succ _ b (h.index b) p
  · exact congrArg (fun u : Translation =>
      { u with props := (xs.length, s.index (block p)) :: s.translation.props }) h.translation
  · rcases lt_or_ge i xs.length with hi | hi
    · rw [List.getElem?_append_left hi] at hq
      obtain ⟨j, hj, hsome⟩ := h.mapped i q hq
      exact ⟨j, (Mapping.lookup_other hi.ne).trans hj,
        (List.getElem?_set_ne (h.ne_of_free hj hfree).symm).trans hsome⟩
    · rw [List.getElem?_append_right hi, List.getElem?_singleton] at hq
      split at hq
      · obtain rfl := Option.some.inj hq
        obtain rfl : i = xs.length := by omega
        exact ⟨_, Mapping.lookup_self, List.getElem?_set_self hlt⟩
      · cases hq
  · rw [List.length_append, List.length_singleton] at hi
    exact (Mapping.lookup_other (by omega)).trans (h.unmapped i (by omega))
  · by_cases hi' : i = xs.length
    · by_cases hj' : j = xs.length
      · exact hi'.trans hj'.symm
      · subst hi'
        obtain rfl := Option.some.inj (Mapping.lookup_self.symm.trans hi)
        rw [Mapping.lookup_other hj'] at hj
        exact absurd rfl (h.ne_of_free hj hfree)
    · rw [Mapping.lookup_other hi'] at hi
      by_cases hj' : j = xs.length
      · subst hj'
        obtain rfl := Option.some.inj (Mapping.lookup_self.symm.trans hj)
        exact absurd rfl (h.ne_of_free hi hfree)
      · rw [Mapping.lookup_other hj'] at hj
        exact h.injective i j k hi hj

end Placed

/-- The propositions are in their blocks, and each is mapped to where it went. -/
structure PropsSorted (f : L2File) (t t' : Translation) : Prop where
  dest : t'.dest = { t.dest with props := (Blocks.sorted block blocks f.props).map made }
  maps : t'.vars = t.vars ∧ t'.clauses = t.clauses
  mapped : ∀ i p, f.props[i]? = some p → ∃ j, t'.props.getDestination i = some j ∧
    t'.dest.props[j]? = some (made p)
  injective : ∀ i j k, t'.props.getDestination i = some k → t'.props.getDestination j = some k →
    i = j

theorem copyAllProps_spec (hf : f.WellFormed)
    (hvars : ∀ v < f.vars.length, t.vars.getDestination v = some v) (hprops : t.props = []) :
    ∃ t', copyAllProps f t = .ok t' ∧ PropsSorted f t t' := by
  have hstart : Placed t [] f.props
      ⟨t, List.replicate f.props.length none, firstIndex (counts f.props)⟩ := by
    refine ⟨?_, fun b => (firstIndex_eq f.props b).trans ?_, rfl, fun i p hi => ?_, fun i _ => ?_,
      fun i j k hi => ?_⟩
    · exact (Blocks.filled_start made nodup_blocks fun p _ => mem_blocks (block p)).symm
    · rfl
    · cases hi
    · rw [hprops]
      rfl
    · rw [hprops] at hi
      cases hi
  have hturn : ∀ k p, f.props[k]? = some p → ∀ s, Placed t (f.props.take k) (f.props.drop k) s →
      ∃ s', copyPropTurn s (p, k) = .ok s' ∧
        Placed t (f.props.take (k + 1)) (f.props.drop (k + 1)) s' := by
    intro k p hp s hs
    obtain ⟨hlt, rfl⟩ := List.getElem?_eq_some_iff.mp hp
    rw [List.drop_eq_getElem_cons hlt] at hs
    have hcopy := copyProp_eq hvars (hf.props _ (List.getElem_mem hlt))
    obtain ⟨s', hs', hplaced⟩ := hs.turn hcopy
    rw [List.length_take_of_le hlt.le] at hs'
    rw [List.take_append_getElem hlt] at hplaced
    exact ⟨s', hs', hplaced⟩
  have hloop := ReturnsIff.foldlM_zipIdx (fun _ => True)
    (fun k => Placed t (f.props.take k) (f.props.drop k)) f.props 0 (f := copyPropTurn)
    (fun k p hp s hs => ?_) hstart
  · obtain ⟨s, hs, hplaced⟩ := hloop.returns fun _ _ => trivial
    rw [Nat.zero_add, List.take_length, List.drop_length] at hplaced
    have harray : s.array = ((Blocks.sorted block blocks f.props).map made).map some := by
      rw [hplaced.array, Blocks.filled_nil, List.map_map]
      rfl
    have hall : s.array.all Option.isSome = true := by
      rw [harray]
      simp
    have hreduce : s.array.reduceOption = (Blocks.sorted block blocks f.props).map made := by
      rw [harray]
      change List.filterMap id _ = _
      simp [List.filterMap_map]
    refine ⟨{ s.translation with
      dest := { s.translation.dest with props := s.array.reduceOption } }, ?_, ?_, ?_, fun i p hp => ?_,
      hplaced.injective⟩
    · unfold copyAllProps
      simp only [countProps_counts, hs, hall, bind, Except.bind, if_true, pure, Except.pure]
    · rw [hreduce, hplaced.translation]
    · rw [hplaced.translation]
      exact ⟨rfl, rfl⟩
    · obtain ⟨j, hj, hsome⟩ := hplaced.mapped i p hp
      rw [harray, List.getElem?_map] at hsome
      refine ⟨j, hj, ?_⟩
      rw [hreduce]
      simpa using hsome
  · rw [Nat.zero_add] at hs ⊢
    obtain ⟨s', hs', hplaced⟩ := hturn k p hp s hs
    rw [hs']
    exact ⟨trivial, hplaced⟩

/-- Clause by clause, the references follow the propositions. -/
def Follows (m : Mapping) (c d : L2rClause) : Prop :=
  d.isInBackground = c.isInBackground ∧
    c.props.Forall₂ (fun i j => m.getDestination i = some j) d.props

theorem copyClause_follows {m : Mapping} {c d : L2rClause} (h : copyClause m c = .ok d) :
    Follows m c d := by
  obtain ⟨props, hprops, h⟩ := bind_eq_ok h
  obtain rfl := Except.ok.inj h
  exact ⟨rfl, (mapM_forall₂ hprops).imp fun i j hij => getDest_eq_ok.mp hij⟩

theorem copyAllClauses_spec (hf : f.WellFormed) (h : PropsSorted f t t') : ∃ u,
    copyAllClauses f t' = .ok u ∧ u.dest = { t'.dest with clauses := u.dest.clauses } ∧
      u.vars = t'.vars ∧ u.props = t'.props ∧ u.clauses = .identity f.clauses.length ∧
      f.clauses.Forall₂ (Follows t'.props) u.dest.clauses := by
  have htotal : ∀ c ∈ f.clauses, ∃ d, copyClause t'.props c = .ok d := by
    intro c hc
    obtain ⟨props, hprops⟩ : ∃ props, c.props.mapM (getDest t'.props) = .ok props := by
      refine mapM_total fun i hi => ?_
      obtain ⟨j, hj, -⟩ := h.mapped i _ (List.getElem?_eq_getElem (hf.clauses c hc i hi))
      exact ⟨j, getDest_eq_ok.mpr hj⟩
    exact ⟨{ c with props := props }, by simp [copyClause, hprops, bind, Except.bind, pure, Except.pure]⟩
  obtain ⟨clauses, hclauses⟩ := mapM_total htotal
  refine ⟨{ t' with dest := { t'.dest with clauses := clauses }, clauses := .identity f.clauses.length },
    ?_, rfl, rfl, rfl, rfl, (mapM_forall₂ hclauses).imp fun c d hcd => copyClause_follows hcd⟩
  simp [copyAllClauses, hclauses, bind, Except.bind, pure, Except.pure]

/-- The translation `t` of the model `f` has its propositions in blocks, and says what `f` says.
The nominal transitions come in the opposite order. -/
structure Sorted (f : L2File) (t : Translation) : Prop where
  enums : t.dest.enums = f.enums
  vars : t.dest.vars =
    f.vars.map fun x => { x with mode := ⟨x.mode.nominal.reverse, x.mode.failure⟩ }
  perm : t.dest.props.Perm (f.props.map made)
  ordered : (∀ q, .varVar q ∈ f.props → q.var ≤ q.otherVar) → t.dest.props.Perm f.props
  checked : ∃ n, countProps f = .ok n ∧ countProps t.dest = .ok n ∧ checkSorted t.dest n = .ok ()
  mapped : ∀ i p, f.props[i]? = some p → ∃ j, t.props.getDestination i = some j ∧
    t.dest.props[j]? = some (made p)
  injective : ∀ i j k, t.props.getDestination i = some k → t.props.getDestination j = some k → i = j
  clauses : f.clauses.Forall₂ (fun c d => Follows t.props c d ∧
    ∀ a, t.dest.ClauseHolds a d ↔ f.ClauseHolds a c) t.dest.clauses
  solutions : ∀ a, t.dest.Solution a ↔ f.Solution a

theorem Follows.holds {m : Mapping} {c d : L2rClause} {g : L2File} (h : Follows m c d)
    (hm : ∀ i p, f.props[i]? = some p → ∃ j, m.getDestination i = some j ∧
      g.props[j]? = some (made p))
    (hc : ∀ i ∈ c.props, i < f.props.length) : g.ClauseHolds a d ↔ f.ClauseHolds a c := by
  rw [L2File.clauseHolds_iff, L2File.clauseHolds_iff]
  refine L2File.exists_mem_iff (List.forall₂_and_left _ _ |>.mpr ⟨hc, h.2⟩) fun i j ⟨hi, hij⟩ => ?_
  obtain ⟨j', hj', hp⟩ := hm i _ (List.getElem?_eq_getElem hi)
  obtain rfl := Option.some.inj (hij.symm.trans hj')
  simp [hp, List.getElem?_eq_getElem hi, holds_made]

theorem checkSorted_sorted {g : L2File} (ps : List L2rProposition)
    (h : g.props = (Blocks.sorted block blocks ps).map made) : checkSorted g (counts ps) = .ok () := by
  let part (b : Block) : List L2rProposition := (ps.filter fun p => block p = b).map made
  have hlen (b : Block) : ps.countP (block · = b) = (part b).length := by
    rw [List.length_map, List.countP_eq_length_filter]
  have hprops : g.props = part .positive ++ part .negative ++ part .same ++ part .different := by
    rw [h]
    simp [Blocks.sorted, blocks, part]
  have hpart (positive equality : Bool) : ∀ p ∈ part (blockOf positive equality),
      p.isPositive = positive ∧ p.isEquality = equality := by
    intro p hp
    obtain ⟨q, hq, rfl⟩ := List.mem_map.mp hp
    exact block_eq_iff.mp ((block_made q).trans (of_decide_eq_true (List.mem_filter.mp hq).2))
  have h₁ : checkRun g 0 (counts ps).npos true false = .ok () :=
    checkRun_ok [] (part .positive) (part .negative ++ part .same ++ part .different)
      (by simp [hprops]) rfl (hlen _) (hpart true false)
  have h₂ : checkRun g (counts ps).npos (counts ps).nneg false false = .ok () :=
    checkRun_ok (part .positive) (part .negative) (part .same ++ part .different)
      (by simp [hprops]) (hlen _) (hlen _) (hpart false false)
  have h₃ : checkRun g ((counts ps).npos + (counts ps).nneg) (counts ps).nsame true true = .ok () :=
    checkRun_ok (part .positive ++ part .negative) (part .same) (part .different) hprops
      (by simp only [counts, hlen, List.length_append]) (hlen _) (hpart true true)
  have h₄ : checkRun g ((counts ps).npos + (counts ps).nneg + (counts ps).nsame) (counts ps).ndiff
      false true = .ok () :=
    checkRun_ok (part .positive ++ part .negative ++ part .same) (part .different) []
      (by simp [hprops]) (by simp only [counts, hlen, List.length_append]) (hlen _)
      (hpart false true)
  unfold checkSorted
  simp only [h₁, h₂, h₃, h₄, bind, Except.bind]

/-- Every model is translated, with its propositions in blocks and its meaning as it was. -/
theorem translate_sorted (hf : f.WellFormed) : ∃ t, translate f = .ok t ∧ Sorted f t := by
  obtain ⟨t₁, h₁, hvars⟩ := copyAllVars_spec f
  obtain ⟨t₂, h₂, hprops⟩ := copyAllProps_spec hf hvars.mapped hvars.props
  obtain ⟨t₃, h₃, hdest, hmaps, hmap, hidentity, hclauses⟩ := copyAllClauses_spec hf hprops
  have hdest₂ : t₂.dest = { enums := f.enums, vars := f.vars.map bare, props := t₂.dest.props } := by
    rw [hprops.dest, hvars.dest, List.take_length]
  have hbare : t₃.dest.vars = f.vars.map bare := by
    rw [hdest, hdest₂]
  have hmapped : ∀ v < f.vars.length, t₃.vars.getDestination v = some v := by
    rw [hmaps, hprops.maps.1]
    exact hvars.mapped
  obtain ⟨t, ht, hmodes⟩ := copyAllTransitions_spec hf hbare hmapped
  refine ⟨t, ?_, ?_⟩
  · unfold translate
    simp only [h₁, h₂, h₃, ht, bind, Except.bind]
  have henums : t.dest.enums = f.enums := by
    rw [hmodes.enums, hdest, hdest₂]
  have hvarsEq : t.dest.vars =
      f.vars.map fun x => { x with mode := ⟨x.mode.nominal.reverse, x.mode.failure⟩ } := by
    rw [hmodes.vars hbare, hidentity, modes_kept hf]
  have hkept : t.dest.props = t₂.dest.props := by
    rw [hmodes.props, hdest]
  have hsorted : t.dest.props = (Blocks.sorted block blocks f.props).map made := by
    rw [hkept, hprops.dest]
  have hperm : t.dest.props.Perm (f.props.map made) := by
    rw [hsorted]
    exact (Blocks.perm_sorted nodup_blocks fun p _ => mem_blocks (block p)).map made
  have hmap₂ : t.props = t₂.props := hmodes.maps.2.1.trans hmap
  have hmoved : ∀ i p, f.props[i]? = some p → ∃ j, t.props.getDestination i = some j ∧
      t.dest.props[j]? = some (made p) := by
    rw [hmap₂, hkept]
    exact hprops.mapped
  have hfollow : f.clauses.Forall₂ (fun c d => Follows t.props c d ∧
      ∀ a, t.dest.ClauseHolds a d ↔ f.ClauseHolds a c) t.dest.clauses := by
    rw [hmap₂, hmodes.clauses]
    refine (List.forall₂_and_left _ _ |>.mpr ⟨hf.clauses, hclauses⟩).imp fun c d ⟨hc, hcd⟩ => ?_
    exact ⟨hcd, fun a => hcd.holds (hmap₂ ▸ hmoved) hc⟩
  exact {
    enums := henums
    vars := hvarsEq
    perm := hperm
    ordered := fun hordered => map_made hordered ▸ hperm
    checked := ⟨counts f.props, countProps_counts f,
      (countProps_counts t.dest).trans (congrArg Except.ok (counts_copies hperm)),
      checkSorted_sorted f.props hsorted⟩
    mapped := hmoved
    injective := hmap₂ ▸ hprops.injective
    clauses := hfollow
    solutions := fun a => L2File.solution_iff
      (L2File.valid_iff (by rw [hvarsEq, List.length_map]) (L2File.nmembers_eq henums hvarsEq))
      (hfollow.imp fun c d hcd => ⟨hcd.1.1, hcd.2 a⟩) }

/-- Two modes and propositions of every kind, in no block. -/
def mixed : L2File where
  enums := [2]
  vars := [
    { type := 0, kind := .mode, initial := some 0,
      mode := ⟨[⟨0, some 0, 1, [some 0], true, 0⟩], [⟨0, none, 1, [some 1], false, 3⟩]⟩ },
    { type := 0, kind := .mode, initial := some 1 }]
  props := [.varVar ⟨0, false, 1⟩, .varValue ⟨1, false, 0⟩, .varVar ⟨0, true, 1⟩, .varValue ⟨0, true, 1⟩]
  clauses := [⟨[0, 3], true⟩, ⟨[1, 2], false⟩]

theorem translate_sorted_mixed : ∃ t, translate mixed = .ok t ∧ Sorted mixed t :=
  translate_sorted (by decide)

end Livingstone.SortProps
