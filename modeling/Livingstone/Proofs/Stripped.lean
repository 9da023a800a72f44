import Livingstone.Readers.Copies
import Livingstone.Readers.Strip

/-! Stripping changes the types of the variables and nothing else: a model and its stripped copy
differ in how many types there are. -/

namespace Livingstone.Strip

open Loop Translation

variable {f : L2File} {t t' : Translation} {m types : Mapping} {es : List ℕ} {a : ℕ → ℕ}

/-- The first `k` types of the source have their sizes among those of the destination. -/
structure EnumsCopied (f : L2File) (k : ℕ) (s : List ℕ × Mapping) : Prop where
  nodup : s.1.Nodup
  mapped : ∀ i < k, ∀ n, f.enums[i]? = some n →
    ∃ j, s.2.getDestination i = some j ∧ s.1[j]? = some n
  unmapped : ∀ i, k ≤ i → s.2.getDestination i = none

theorem EnumsCopied.map {s : List ℕ × Mapping} {k j n : ℕ} (h : EnumsCopied f k s)
    (hn : f.enums[k]? = some n) (hpre : s.1 <+: es) (hes : es.Nodup) (hj : es[j]? = some n) :
    EnumsCopied f (k + 1) (es, (k, j) :: s.2) := by
  refine ⟨hes, fun i hi n' hn' => ?_, fun i hi => (Mapping.lookup_other (by omega)).trans
    (h.unmapped i (by omega))⟩
  rcases Nat.lt_succ_iff_lt_or_eq.mp hi with hi | rfl
  · obtain ⟨j', hj', hsize⟩ := h.mapped i hi n' hn'
    obtain ⟨new, rfl⟩ := hpre
    exact ⟨j', (Mapping.lookup_other hi.ne).trans hj',
      (List.getElem?_append_left (List.getElem?_eq_some_iff.mp hsize).1).trans hsize⟩
  · obtain rfl := Option.some.inj (hn.symm.trans hn')
    exact ⟨j, Mapping.lookup_self, hj⟩

theorem EnumsCopied.turn {s : List ℕ × Mapping} {k n : ℕ} (h : EnumsCopied f k s)
    (hn : f.enums[k]? = some n) :
    ∃ s', copyEnumTurn s (n, k) = .ok s' ∧ EnumsCopied f (k + 1) s' := by
  have hadd := Mapping.addMapping_new (h.unmapped k le_rfl)
  unfold copyEnumTurn
  cases hidx : s.1.idxOf? n with
  | none =>
    have hnot : n ∉ s.1 := List.idxOf?_eq_none_iff.mp hidx
    have hnodup : (s.1 ++ [n]).Nodup :=
      List.nodup_append.mpr ⟨h.nodup, List.nodup_singleton n, fun x hx y hy => by
        rintro rfl
        exact hnot (List.mem_singleton.mp hy ▸ hx)⟩
    refine ⟨_, ?_, h.map hn (List.prefix_append s.1 [n]) hnodup List.getElem?_concat_length⟩
    simp [hadd, bind, Except.bind, pure, Except.pure]
  | some j =>
    have hj : s.1[j]? = some n := by
      obtain ⟨hlt, hj, -⟩ := List.idxOf?_eq_some_iff.mp hidx
      exact (List.getElem?_eq_getElem hlt).trans (congrArg some hj)
    refine ⟨_, ?_, h.map hn (List.prefix_refl s.1) h.nodup hj⟩
    simp [hadd, bind, Except.bind, pure, Except.pure]

theorem copyAllEnums_spec (f : L2File) (t : Translation) : ∃ es types,
    copyAllEnums f t = .ok ({ t with dest := { t.dest with enums := es } }, types) ∧
      EnumsCopied f f.enums.length (es, types) := by
  have hloop := ReturnsIff.foldlM_zipIdx (fun _ => True) (EnumsCopied f) f.enums 0
    (f := copyEnumTurn) (s := ([], [])) (fun k n hn s hs => ?_) ?_
  · obtain ⟨⟨es, types⟩, hs, hcopied⟩ := hloop.returns fun _ _ => trivial
    refine ⟨es, types, ?_, Nat.zero_add f.enums.length ▸ hcopied⟩
    simp [copyAllEnums, hs, bind, Except.bind, pure, Except.pure]
  · rw [Nat.zero_add] at hs ⊢
    obtain ⟨s', hs', hcopied⟩ := hs.turn hn
    rw [hs']
    exact ⟨trivial, hcopied⟩
  · exact ⟨List.nodup_nil, fun i hi => absurd hi (Nat.not_lt_zero i), fun i _ => rfl⟩

/-- A variable with its type in the destination. -/
def retype (types : Mapping) (x : L2rVariable) : L2rVariable :=
  { x with type := (types.getDestination x.type).getD 0 }

/-- The model with the types of the destination. -/
def retyped (f : L2File) (es : List ℕ) (types : Mapping) : L2File :=
  { f with enums := es, vars := f.vars.map (retype types) }

theorem type_retyped (v : ℕ) : (retyped f es types).type v =
    (f.type v).map fun e => (types.getDestination e).getD 0 := by
  unfold L2File.type retyped
  rw [List.getElem?_map, Option.map_map, Option.map_map]
  rfl

section
variable (h : EnumsCopied f f.enums.length (es, types))
include h

theorem size_kept {e n : ℕ} (he : f.enums[e]? = some n) :
    es[(types.getDestination e).getD 0]? = some n := by
  obtain ⟨j, hj, hsize⟩ := h.mapped e (List.getElem?_eq_some_iff.mp he).1 n he
  rw [hj]
  exact hsize

/-- Two types become one if and only if they have the same number of members. -/
theorem type_eq_iff {e e' n n' : ℕ} (he : f.enums[e]? = some n) (he' : f.enums[e']? = some n') :
    (types.getDestination e).getD 0 = (types.getDestination e').getD 0 ↔ n = n' := by
  have hsize := size_kept h he
  have hsize' := size_kept h he'
  constructor
  · intro heq
    rw [heq] at hsize
    exact Option.some.inj (hsize.symm.trans hsize')
  · rintro rfl
    have hlt := (List.getElem?_eq_some_iff.mp hsize).1
    exact (List.getElem?_inj hlt h.nodup).mp (hsize.trans hsize'.symm)

theorem nmembers_retyped (hf : f.WellFormed) (v : ℕ) :
    (retyped f es types).nmembers v = f.nmembers v := by
  unfold L2File.nmembers
  rw [type_retyped]
  unfold L2File.type
  cases hv : f.vars[v]? with
  | none => rfl
  | some x =>
    have hlt := hf.types x (List.mem_of_getElem? hv)
    have hsize := size_kept h (List.getElem?_eq_getElem hlt)
    simp only [Option.map_some, Option.bind_some, retyped, hsize, List.getElem?_eq_getElem hlt]

theorem typed_retyped (hf : f.WellFormed) {p : L2rProposition} (hp : f.Typed p) :
    (retyped f es types).Typed p := by
  have hlength : (retyped f es types).vars.length = f.vars.length := List.length_map _
  cases p with
  | varValue p =>
    refine ⟨hlength ▸ hp.1, ?_⟩
    rw [nmembers_retyped h hf]
    exact hp.2
  | varVar p =>
    refine ⟨hlength ▸ hp.1, hlength ▸ hp.2.1, ?_⟩
    rw [type_retyped, type_retyped, hp.2.2]

theorem wellFormed_retyped (hf : f.WellFormed) : (retyped f es types).WellFormed := by
  have hvar {v : ℕ} {y : L2rVariable} (hy : (retyped f es types).vars[v]? = some y) :
      ∃ x, f.vars[v]? = some x ∧ retype types x = y := by
    have hy := (List.getElem?_map ..).symm.trans hy
    exact Option.map_eq_some_iff.mp hy
  have htyped {v : ℕ} {z : L2rTransition} (hz : f.TypedTransition v z) :
      (retyped f es types).TypedTransition v z := by
    refine ⟨hz.mode, fun i hi => ?_, ?_, hz.clauses⟩
    · rw [nmembers_retyped h hf]
      exact hz.from_lt i hi
    · rw [nmembers_retyped h hf]
      exact hz.to_lt
  refine ⟨fun y hy => ?_, fun v y i hy hi => ?_, fun p hp => typed_retyped h hf (hf.props p hp),
    hf.clauses, fun v y hy z hz => ?_, fun v y hy z hz => ?_, fun y hy => ?_⟩
  · obtain ⟨x, hx, rfl⟩ := List.mem_map.mp hy
    have hsize := size_kept h (List.getElem?_eq_getElem (hf.types x hx))
    exact (List.getElem?_eq_some_iff.mp hsize).1
  · obtain ⟨x, hx, rfl⟩ := hvar hy
    rw [nmembers_retyped h hf]
    exact hf.initial v x i hx hi
  · obtain ⟨x, hx, rfl⟩ := hvar hy
    obtain ⟨hkind, hnominal, hrank, hz⟩ := hf.nominal v x hx z hz
    exact ⟨hkind, hnominal, hrank, htyped hz⟩
  · obtain ⟨x, hx, rfl⟩ := hvar hy
    obtain ⟨hkind, hnominal, hz⟩ := hf.failure v x hx z hz
    exact ⟨hkind, hnominal, htyped hz⟩
  · obtain ⟨x, hx, rfl⟩ := List.mem_map.mp hy
    exact hf.sorted x hx

omit h in
theorem getVar_retyped {v : ℕ} (hv : v < f.vars.length) :
    (retyped f es types).getVar v = .ok (retype types f.vars[v]) :=
  L2File.getVar_eq_ok.mpr
    ((List.getElem?_map ..).trans (congrArg (Option.map _) (List.getElem?_eq_getElem hv)))

theorem copyVar_retyped (hf : f.WellFormed) (m : Mapping) {v : ℕ} (hv : v < f.vars.length) :
    copyVar f types m v = Translation.copyVar (retyped f es types) m v v := by
  have hget : f.getVar v = .ok f.vars[v] :=
    L2File.getVar_eq_ok.mpr (List.getElem?_eq_getElem hv)
  have hget' : (retyped f es types).getVar v = .ok (retype types f.vars[v]) := getVar_retyped hv
  have hlt := hf.types _ (List.getElem_mem hv)
  obtain ⟨j, hj, -⟩ := h.mapped _ hlt _ (List.getElem?_eq_getElem hlt)
  unfold copyVar Translation.copyVar addVarMapping
  simp only [hget, hget', hj, bind, Except.bind, L2rVariable.setKind, true_or, if_true, retype,
    Option.getD_some]

theorem copyAllVars_retyped (hf : f.WellFormed) (t : Translation) :
    copyAllVars f types t = Translation.copyAllVars (retyped f es types) t := by
  unfold copyAllVars Translation.copyAllVars
  have hlength : (retyped f es types).vars.length = f.vars.length := List.length_map _
  rw [hlength]
  refine foldlM_congr (fun t v hv => ?_) t
  rw [copyVar_retyped h hf t.vars (List.mem_range.mp hv)]

end

theorem copyTransitions_retyped (f : L2File) (es : List ℕ) (types : Mapping) (t : Translation) :
    copyAllTransitions f t = copyAllTransitions (retyped f es types) t := by
  unfold copyAllTransitions
  have hlength : (retyped f es types).vars.length = f.vars.length := List.length_map _
  rw [hlength]
  refine foldlM_congr (fun t v hv => ?_) t
  have hv := List.mem_range.mp hv
  have hget : f.getVar v = .ok f.vars[v] :=
    L2File.getVar_eq_ok.mpr (List.getElem?_eq_getElem hv)
  rw [hget, getVar_retyped hv]
  -- the transitions of a variable do not depend on its type
  rfl

structure SameVariable (f g : L2File) (x y : L2rVariable) : Prop where
  size : g.enums[y.type]? = f.enums[x.type]?
  kind : y.kind = x.kind
  initial : y.initial = x.initial
  mode : y.mode = ⟨x.mode.nominal.reverse, x.mode.failure⟩

/-- The translation `t` of the model `f` differs from it in its types, which have different sizes.
The nominal transitions come in the opposite order. -/
structure Stripped (f : L2File) (t : Translation) : Prop where
  vars : f.vars.Forall₂ (SameVariable f t.dest) t.dest.vars
  nmembers : ∀ v, t.dest.nmembers v = f.nmembers v
  shared : ∀ v < f.vars.length, ∀ w < f.vars.length,
    (t.dest.type v = t.dest.type w ↔ f.nmembers v = f.nmembers w)
  props : t.dest.props = f.props.map made
  ordered : (∀ q, .varVar q ∈ f.props → q.var ≤ q.otherVar) → t.dest.props = f.props
  clauses : t.dest.clauses = f.clauses
  clauseHolds : ∀ a c, t.dest.ClauseHolds a c ↔ f.ClauseHolds a c
  solutions : ∀ a, t.dest.Solution a ↔ f.Solution a

theorem shared_iff (h : EnumsCopied f f.enums.length (es, types)) (hf : f.WellFormed) {v w : ℕ}
    (hv : v < f.vars.length) (hw : w < f.vars.length) :
    (retyped f es types).type v = (retyped f es types).type w ↔ f.nmembers v = f.nmembers w := by
  have hsize {v : ℕ} (hv : v < f.vars.length) : ∃ e n, f.type v = some e ∧ f.enums[e]? = some n ∧
      f.nmembers v = n := by
    have hlt := hf.types _ (List.getElem_mem hv)
    have htype : f.type v = some f.vars[v].type :=
      congrArg (Option.map _) (List.getElem?_eq_getElem hv)
    have hn := List.getElem?_eq_getElem hlt
    refine ⟨_, _, htype, hn, ?_⟩
    unfold L2File.nmembers
    rw [htype, Option.bind_some, hn]
    rfl
  obtain ⟨e, n, htype, hn, heq⟩ := hsize hv
  obtain ⟨e', n', htype', hn', heq'⟩ := hsize hw
  rw [type_retyped, type_retyped, htype, htype', heq, heq', Option.map_some, Option.map_some,
    Option.some.injEq]
  exact type_eq_iff h hn hn'

theorem clauseHolds_made {g : L2File} (h : g.props = f.props.map made) (c : L2rClause) :
    g.ClauseHolds a c ↔ f.ClauseHolds a c := by
  simp only [L2File.clauseHolds_iff, h, List.getElem?_map, Option.map_eq_some_iff]
  refine exists_congr fun i => and_congr_right fun _ => ⟨?_, ?_⟩
  · rintro ⟨_, ⟨p, hp, rfl⟩, hholds⟩
    exact ⟨p, hp, holds_made.mp hholds⟩
  · intro ⟨p, hp, hholds⟩
    exact ⟨made p, ⟨p, hp, rfl⟩, holds_made.mpr hholds⟩

/-- Every model is stripped, and types are shared where their sizes are. -/
theorem translate_stripped (hf : f.WellFormed) : ∃ t, translate f = .ok t ∧ Stripped f t := by
  obtain ⟨es, types, henums, h⟩ := copyAllEnums_spec f {}
  obtain ⟨t, ht, hdest⟩ := copies_spec (wellFormed_retyped h hf)
  refine ⟨t, ?_, ?_⟩
  · rw [← ht]
    unfold translate
    simp only [henums, bind, Except.bind, copyAllVars_retyped h hf, copyTransitions_retyped f es types]
    rfl
  have hvars : t.dest.vars = (retyped f es types).vars.map fun x =>
      { x with mode := ⟨x.mode.nominal.reverse, x.mode.failure⟩ } := by rw [hdest]
  have henums : t.dest.enums = (retyped f es types).enums := by rw [hdest]
  have hprops : t.dest.props = f.props.map made := by rw [hdest]; rfl
  have hclauses : t.dest.clauses = f.clauses := by rw [hdest]; rfl
  have hlength : t.dest.vars.length = f.vars.length := by
    rw [hvars, List.length_map]
    exact List.length_map _
  have hn (v : ℕ) : t.dest.nmembers v = f.nmembers v :=
    (L2File.nmembers_eq henums hvars v).trans (nmembers_retyped h hf v)
  refine ⟨?_, hn, fun v hv w hw => ?_, hprops, fun hordered => ?_, hclauses,
    fun a c => clauseHolds_made hprops c, fun a => ?_⟩
  · rw [hvars]
    refine List.forall₂_map_right_iff.mpr (List.forall₂_map_right_iff.mpr ?_)
    refine List.forall₂_same.mpr fun x hx => ⟨?_, rfl, rfl, rfl⟩
    have hlt := List.getElem?_eq_getElem (hf.types x hx)
    rw [henums, hlt]
    exact size_kept h hlt
  · rw [L2File.type_eq hvars, L2File.type_eq hvars]
    exact shared_iff h hf hv hw
  · exact hprops.trans (map_made hordered)
  · refine L2File.solution_iff (L2File.valid_iff hlength hn) ?_
    rw [hclauses]
    exact List.forall₂_same.mpr fun c _ => ⟨rfl, clauseHolds_made hprops c⟩

/-- Three types, two of which have the same number of members. -/
def threeTypes : L2File where
  enums := [2, 3, 2]
  vars := [
    { type := 0, kind := .mode, initial := some 0,
      mode := ⟨[⟨0, some 0, 1, [some 0], true, 0⟩], [⟨0, none, 1, [], false, 3⟩]⟩ },
    { type := 1, kind := .observed },
    { type := 2, kind := .commanded }]
  props := [.varValue ⟨0, true, 0⟩, .varValue ⟨1, false, 2⟩, .varValue ⟨2, true, 1⟩]
  clauses := [⟨[0, 1], true⟩, ⟨[2], false⟩]

theorem translate_stripped_threeTypes :
    ∃ t, translate threeTypes = .ok t ∧ Stripped threeTypes t :=
  translate_stripped (by decide)

end Livingstone.Strip
