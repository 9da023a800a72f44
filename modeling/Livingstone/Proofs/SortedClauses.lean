import Livingstone.Lib.Placement
import Livingstone.Proofs.Duplicates

/-! The lists of propositions by which clauses are compared. `add_prop` puts a proposition one place
too early unless it goes to the front, so a list is in order only if its propositions come from the
greatest address to the least. -/

namespace Livingstone.RemoveDuplicates

open Loop Placement

variable {f : L2File} {t t' u : Translation} {address : ℕ → ℕ} {map : Mapping} {p : ℕ}
  {ps qs props : List ℕ}

/-- The list after a sequence of calls of `add_prop`. -/
def addAll (address : ℕ → ℕ) (ps : List ℕ) : List ℕ :=
  ps.foldl (fun props p => addProp address p props) []

/-- Each proposition that was not there has the least address so far. -/
def Descends (address : ℕ → ℕ) (ps : List ℕ) : Prop :=
  ∀ ps₁ p ps₂, ps = ps₁ ++ p :: ps₂ → p ∈ ps₁ ∨ ∀ q ∈ ps₁, address p < address q

theorem addProp_eq : addProp address p props =
    place address (search address p props - 1) p props := rfl

theorem increasing_addProp : Increasing address (addProp address p props) ↔
    Increasing address props ∧ (p ∈ props ∨ ∀ q ∈ props, address p < address q) := by
  have hle : search address p props - 1 ≤ props.length :=
    (Nat.sub_le _ 1).trans search_le
  rw [addProp_eq, increasing_place hle]
  refine and_congr_right fun hprops => or_congr_right ?_
  constructor
  · intro ⟨_, hdrop⟩
    rcases Nat.eq_zero_or_pos (search address p props) with hzero | hpos
    · rwa [hzero, Nat.zero_sub, List.drop_zero] at hdrop
    · -- the last one that is smaller comes after the new one
      have hlt : search address p props - 1 < search address p props := Nat.sub_one_lt hpos.ne'
      have hlen : search address p props - 1 < props.length := hlt.trans_le search_le
      have hle := (le_of_lt_search hlt (List.getElem?_eq_getElem hlen)).2
      have hmem : props[search address p props - 1] ∈ props.drop (search address p props - 1) := by
        rw [List.drop_eq_getElem_cons hlen]
        exact List.mem_cons_self
      exact absurd (hdrop _ hmem) (not_lt.mpr hle)
  · intro hall
    have hzero : search address p props = 0 := by
      by_contra hne
      have hpos : 0 < search address p props := Nat.pos_of_ne_zero hne
      have hlen : 0 < props.length := hpos.trans_le search_le
      have hle := (le_of_lt_search hpos (List.getElem?_eq_getElem hlen)).2
      exact absurd (hall _ (List.getElem_mem hlen)) (not_lt.mpr hle)
    rw [hzero]
    exact ⟨by simp, fun q hq => hall q (List.mem_of_mem_drop hq)⟩

theorem mem_foldl_addProp {q : ℕ} :
    q ∈ ps.foldl (fun props p => addProp address p props) props ↔ q ∈ ps ∨ q ∈ props := by
  induction ps generalizing props with
  | nil => simp
  | cons p ps ih =>
    rw [List.foldl_cons, ih, mem_addProp, List.mem_cons, or_left_comm, or_assoc]

theorem mem_addAll {q : ℕ} : q ∈ addAll address ps ↔ q ∈ ps := by
  rw [addAll, mem_foldl_addProp]
  simp

theorem increasing_addAll : Increasing address (addAll address ps) ↔ Descends address ps := by
  refine (increasing_foldl (fun props p => increasing_addProp) ps).trans ?_
  refine forall₄_congr fun ps₁ p _ _ => ?_
  have hmem (q : ℕ) : q ∈ ps₁.foldl (fun props p => addProp address p props) [] ↔ q ∈ ps₁ :=
    mem_addAll
  simp only [hmem]

/-- The calls of `add_prop` for a clause that is not a tautology. -/
def calls (f : L2File) (map : Mapping) (is : List ℕ) : List ℕ :=
  is.filterMap fun i =>
    if (f.props[i]?).any useless then none else map.getDestination i

theorem gather_calls {is : List ℕ} {unsatisfiable : Option ℕ} {l : List ℕ}
    (h : gather f address map is props unsatisfiable = .ok l)
    (ht : ∀ i ∈ is, ∀ p, f.props[i]? = some p → ¬ Trivial p) :
    l = (calls f map is).foldl (fun props p => addProp address p props) props := by
  induction is generalizing props unsatisfiable with
  | nil =>
    unfold gather at h
    split at h
    · exact (Except.ok.inj h).symm
    · split at h
      · exact (Except.ok.inj h).symm
      · cases h
  | cons i is ih =>
    rw [List.forall_mem_cons] at ht
    unfold calls at ih ⊢
    rw [List.filterMap_cons]
    cases hp : f.props[i]? with
    | none =>
      have hget : f.getProp i = .error (.bounds "propositions array" i f.props.length) := by
        unfold L2File.getProp boundsCheckAccess
        rw [hp]
        rfl
      unfold gather at h
      rw [hget] at h
      cases h
    | some p =>
      cases hu : useless p with
      | true =>
        obtain ⟨v, hv⟩ := gather_absurd address map is props unsatisfiable hp
          ((useless_cases hu).resolve_left (ht.1 p hp))
        rw [hv] at h
        simpa [hu] using ih h ht.2
      | false =>
        cases hj : map.getDestination i with
        | some j =>
          rw [gather_general hp hu hj] at h
          simpa [hu] using ih h ht.2
        | none =>
          have hget : f.getProp i = .ok p := boundsCheckAccess_eq_ok.mpr hp
          cases p with
          | varValue p => simp [gather, hget, hj, bind, Except.bind] at h
          | varVar p =>
            have hne : p.var ≠ p.otherVar := by simpa [useless] using hu
            simp [gather, hget, hj, hne, bind, Except.bind] at h

/-- The clauses that were visited are in the destination, each list of propositions once. -/
structure Filed (f : L2File) (address : ℕ → ℕ) (map : Mapping) (done : List (L2rClause × ℕ))
    (u : Translation) : Prop where
  props : u.props = map
  once : (u.dest.clauses.map (·.props)).Nodup
  filed : ∀ x ∈ done, ∃ l, hashableClause f address map x.1 = .ok l ∧ (l ≠ [] →
    ∃ k, u.clauses.getDestination x.2 = some k ∧ (u.dest.clauses.map (·.props))[k]? = some l)

theorem Filed.addClauseMapping {done : List (L2rClause × ℕ)} {c : L2rClause} {i k : ℕ}
    {l : List ℕ} (h : Filed f address map done u)
    (hl : hashableClause f address map c = .ok l) {clauses : List L2rClause}
    (honce : (clauses.map (·.props)).Nodup)
    (hkeep : ∀ (j : ℕ) (l : List ℕ), (u.dest.clauses.map (·.props))[j]? = some l →
      (clauses.map (·.props))[j]? = some l)
    (hk : (clauses.map (·.props))[k]? = some l)
    (hu : addClauseMapping { u with dest := { u.dest with clauses := clauses } } c i k = .ok t') :
    Filed f address map (done ++ [(c, i)]) t' := by
  obtain ⟨m, hm, hu⟩ := bind_eq_ok hu
  obtain rfl := Except.ok.inj hu
  obtain ⟨hself, hothers⟩ := Mapping.addMapping_spec hm
  have hclauses : ((if c.isInBackground = true then
      clauses.modify k fun d => { d with isInBackground := true } else clauses).map
        (·.props)) = clauses.map (·.props) := by
    split
    · apply List.ext_getElem?
      intro j
      rw [List.getElem?_map, List.getElem?_map, List.getElem?_modify]
      cases clauses[j]? with
      | none => rfl
      | some d =>
        simp only [Option.map_some]
        split <;> rfl
    · rfl
  refine ⟨h.props, ?_, fun x hx => ?_⟩
  · rw [hclauses]
    exact honce
  · simp only [hclauses]
    rcases List.mem_append.mp hx with hx | hx
    · obtain ⟨l', hl', hfiled⟩ := h.filed x hx
      refine ⟨l', hl', fun hne => ?_⟩
      obtain ⟨j, hj, hget⟩ := hfiled hne
      exact ⟨j, hothers _ _ hj, hkeep j l' hget⟩
    · obtain rfl := List.mem_singleton.mp hx
      exact ⟨l, hl, fun _ => ⟨k, hself, hk⟩⟩

theorem Filed.turn {done : List (L2rClause × ℕ)} {x : L2rClause × ℕ}
    (h : Filed f address map done u) (hu : copyClauseTurn f address u x = .ok t') :
    Filed f address map (done ++ [x]) t' := by
  obtain ⟨l, hl, hu⟩ := bind_eq_ok hu
  rw [h.props] at hl
  split at hu
  case isTrue hlen =>
    obtain rfl := Except.ok.inj hu
    refine ⟨h.props, h.once, fun y hy => ?_⟩
    rcases List.mem_append.mp hy with hy | hy
    · exact h.filed y hy
    · obtain rfl := List.mem_singleton.mp hy
      exact ⟨l, hl, fun hne => absurd (List.eq_nil_of_length_eq_zero hlen) hne⟩
  case isFalse hlen =>
    split at hu
    case h_1 k hk =>
      obtain ⟨hlt, hprops, -⟩ := List.findIdx?_eq_some_iff_getElem.mp hk
      refine h.addClauseMapping hl h.once (fun _ _ hget => hget) ?_ hu
      rw [List.getElem?_map, List.getElem?_eq_getElem hlt]
      exact congrArg some (of_decide_eq_true hprops)
    case h_2 hnone =>
      have hnew : l ∉ u.dest.clauses.map (·.props) := by
        intro hmem
        obtain ⟨d, hd, hdl⟩ := List.mem_map.mp hmem
        have hfalse := List.findIdx?_eq_none_iff.mp hnone d hd
        exact absurd hdl (of_decide_eq_false hfalse)
      refine h.addClauseMapping hl ?_ (fun j l' hget => ?_) ?_ hu
      · rw [List.map_append]
        exact List.nodup_append'.mpr ⟨h.once, List.nodup_singleton l, by simpa using hnew⟩
      · rw [List.map_append, List.getElem?_append_left (List.getElem?_eq_some_iff.mp hget).1]
        exact hget
      · simp

theorem copyAllClauses_filed (h : copyAllClauses f address t = .ok t') (hnone : t.dest.clauses = []) :
    Filed f address t.props f.clauses.zipIdx t' := by
  refine foldlM_visited (Filed f address t.props) f.clauses.zipIdx
    (fun done x _ s s' hs hx => hs.turn hx) ?_ h
  refine ⟨rfl, ?_, by simp⟩
  rw [hnone]
  exact List.nodup_nil

/-- Clauses that call `add_prop` with `ps` and with `qs` become one in every translation. -/
def Merged (address : ℕ → ℕ) (ps qs : List ℕ) : Prop :=
  ∀ (f : L2File) (t t' : Translation) (i j : ℕ) (c d : L2rClause),
    copyAllClauses f address t = .ok t' → t.dest.clauses = [] →
    f.clauses[i]? = some c → f.clauses[j]? = some d →
    ¬ Tautological f c → ¬ Tautological f d →
    calls f t.props c.props = ps → calls f t.props d.props = qs →
    ∃ k, t'.clauses.getDestination i = some k ∧ t'.clauses.getDestination j = some k

theorem merged_of_eq (hne : ps ≠ []) (h : addAll address ps = addAll address qs) :
    Merged address ps qs := by
  intro f t t' i j c d hcopy hnone hc hd hct hdt hps hqs
  obtain ⟨-, honce, hfiled⟩ := copyAllClauses_filed hcopy hnone
  have hfound {i : ℕ} {c : L2rClause} (hc : f.clauses[i]? = some c) (ht : ¬ Tautological f c)
      (hne : addAll address (calls f t.props c.props) ≠ []) :
      ∃ k, t'.clauses.getDestination i = some k ∧ (t'.dest.clauses.map (·.props))[k]? =
        some (addAll address (calls f t.props c.props)) := by
    obtain ⟨l, hl, hk⟩ := hfiled (c, i) (List.mk_mem_zipIdx_iff_getElem?.mpr hc)
    obtain rfl := gather_calls hl fun i hi p hp htriv => ht ⟨i, hi, p, hp, htriv⟩
    exact hk hne
  have hne' : addAll address ps ≠ [] := by
    intro hnil
    obtain ⟨p, hp⟩ := List.exists_mem_of_ne_nil ps hne
    have hmem : p ∈ addAll address ps := mem_addAll.mpr hp
    rw [hnil] at hmem
    cases hmem
  obtain ⟨k, hk, hget⟩ := hfound hc hct (by rwa [hps])
  obtain ⟨k', hk', hget'⟩ := hfound hd hdt (by rwa [hqs, ← h])
  rw [hps] at hget
  rw [hqs, ← h] at hget'
  have hlt := (List.getElem?_eq_some_iff.mp hget).1
  obtain rfl : k = k' := (List.getElem?_inj hlt honce).mp (hget.trans hget'.symm)
  exact ⟨k, hk, hk'⟩

/-- The lists are in order, and clauses with the same propositions are equal and are merged. -/
def SortedAndMerged (address : ℕ → ℕ) (ps qs : List ℕ) : Prop :=
  Increasing address (addAll address ps) ∧ Increasing address (addAll address qs) ∧
    (ps ≠ [] → (∀ p, p ∈ ps ↔ p ∈ qs) →
      addAll address ps = addAll address qs ∧ Merged address ps qs)

theorem sortedAndMerged_iff (address : ℕ → ℕ) (ps qs : List ℕ) :
    SortedAndMerged address ps qs ↔ Descends address ps ∧ Descends address qs := by
  unfold SortedAndMerged
  rw [increasing_addAll, increasing_addAll, ← and_assoc]
  refine and_iff_left_of_imp fun ⟨hp, hq⟩ hne hset => ?_
  have heq : addAll address ps = addAll address qs := by
    refine eq_of_increasing (increasing_addAll.mpr hp) (increasing_addAll.mpr hq) fun p => ?_
    rw [mem_addAll, mem_addAll, hset]
  exact ⟨heq, merged_of_eq hne heq⟩

/-- One clause twice, with its propositions in two orders. -/
def twice : L2File where
  enums := [2]
  vars := [{ type := 0 }, { type := 0 }, { type := 0 }]
  props := [.varValue ⟨0, true, 0⟩, .varValue ⟨1, true, 0⟩, .varValue ⟨2, true, 0⟩]
  clauses := [⟨[0, 1, 2], true⟩, ⟨[2, 1, 0], true⟩]

theorem not_sortedAndMerged : addAll id [0, 1, 2] = [1, 2, 0] ∧ addAll id [2, 1, 0] = [0, 1, 2] ∧
    (translate twice id).toOption.map (·.dest.clauses) =
      some [⟨[1, 2, 0], true⟩, ⟨[0, 1, 2], true⟩] ∧
    ¬ SortedAndMerged id [0, 1, 2] [2, 1, 0] := by
  refine ⟨by decide, by decide, by decide, fun ⟨hp, _⟩ => ?_⟩
  have hbad : ¬ (addAll id [0, 1, 2]).Pairwise fun p q => id p < id q := by decide
  exact hbad hp

end Livingstone.RemoveDuplicates
