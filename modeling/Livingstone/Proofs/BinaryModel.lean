import Livingstone.Proofs.WrittenBytes
import Livingstone.Readers.Copies
import Livingstone.Readers.FromMemory

/-! The binary format. A model comes back as it was written, but for the order of the nominal
transitions, if and only if the fields are one to three bytes wide, the first word of a
clause takes one, and the model holds nothing that the format has no place for. -/

namespace Livingstone.FromMemory

open Codec ToBin L2File

theorem reads_get1 {c : ℕ} (h : c < 256) : Reads get1 [c] c := by
  intro rest
  simp [get1, Nat.mod_eq_of_lt h]

theorem getLoop_succ (width acc : ℕ) : getLoop (width + 1) acc =
    getLoop width acc >>= fun acc => get1 >>= fun c => pure ((acc * 256 + c) % 2 ^ 32) := by
  induction width generalizing acc with
  | zero => rfl
  | succ width ih =>
    rw [getLoop, getLoop, bind_assoc]
    exact bind_congr fun c => ih _

theorem reads_getLoop {width value : ℕ} (acc : ℕ) (hacc : acc < 2 ^ 32) (h : value < 256 ^ width) :
    Reads (getLoop width acc) (bytes width value) ((acc * 256 ^ width + value) % 2 ^ 32) := by
  induction width generalizing value with
  | zero =>
    obtain rfl : value = 0 := by simpa using h
    rw [pow_zero, Nat.mul_one, Nat.add_zero, Nat.mod_eq_of_lt hacc]
    exact Reads.pure
  | succ width ih =>
    have hdiv : value / 256 < 256 ^ width := by
      rw [Nat.div_lt_iff_lt_mul (by decide), ← pow_succ]
      exact h
    have hvalue : ((acc * 256 ^ width + value / 256) % 2 ^ 32 * 256 + value % 256) % 2 ^ 32 =
        (acc * 256 ^ (width + 1) + value) % 2 ^ 32 := by
      have hpow : acc * 256 ^ (width + 1) = acc * 256 ^ width * 256 := by rw [pow_succ]; ring
      rw [hpow]
      generalize acc * 256 ^ width = n
      omega
    rw [getLoop_succ, bytes, ← hvalue]
    exact (ih hdiv).bind ((reads_get1 (Nat.mod_lt value (by decide))).bind_nil Reads.pure)

theorem reads_get {width value : ℕ} (hw : width ≤ 4) (h : value < 256 ^ width) :
    Reads (get width) (bytes width value) value := by
  have hlt : value < 2 ^ 32 :=
    h.trans_le ((Nat.pow_le_pow_right (by decide) hw).trans (by decide))
  have hget := reads_getLoop 0 (by decide) h
  rw [Nat.zero_mul, Nat.zero_add, Nat.mod_eq_of_lt hlt] at hget
  exact hget

structure Narrow (w : Widths) : Prop where
  we : w.we ≤ 4
  wv : w.wv ≤ 4
  wp : w.wp ≤ 4
  wc : w.wc ≤ 4
  wch : w.wch ≤ 4
  wx : w.wx ≤ 4
  wxc : w.wxc ≤ 4

section
variable {f dest : L2File} {w : Widths} (hw : Narrow w)
include hw

theorem reads_enums (h : ∀ k ∈ f.enums, k < 256 ^ w.we) :
    Reads ((List.range f.enums.length).foldlM (fun dest _ => readOneEnum w dest) {})
      (f.enums.flatMap (bytes w.we)) { enums := f.enums } := by
  have hturn : ∀ (n : ℕ) (acc : List ℕ), ∀ k ∈ f.enums,
      Reads (readOneEnum w { enums := acc }) (bytes w.we k) { enums := acc ++ [k] } :=
    fun n acc k hk => (reads_get hw.we (h k hk)).bind_nil Reads.pure
  exact Reads.collect (fun dest _ => readOneEnum w dest) _
    (fun acc => ({ enums := acc } : L2File)) hturn

omit hw in
theorem kindOf_kindByte (k : VarKind) : kindOf (kindByte k % 256) = .ok k := by
  cases k <;> rfl

theorem reads_oneVariable {x : L2rVariable} (hfit : VariableFits w x)
    (hty : x.type < dest.enums.length) (hini : x.kind = .mode ↔ x.initial ≠ none) :
    Reads (readOneVariable w dest) (variableBytes w x)
      { dest with vars := dest.vars ++ [Translation.bare x] } := by
  have hget : dest.getEnum x.type = .ok dest.enums[x.type] :=
    boundsCheckAccess_eq_ok.mpr (List.getElem?_eq_getElem hty)
  have hlast : Reads (readInitial w x.kind)
      (if x.kind = .mode then bytes w.we (unsigned x.initial) else []) x.initial := by
    unfold readInitial
    cases hx : x.initial with
    | none =>
      have hk : ¬ x.kind = .mode := fun hk => hini.mp hk hx
      rw [if_neg hk, if_neg hk]
      exact Reads.pure
    | some i =>
      have hk : x.kind = .mode := hini.mpr (by simp [hx])
      have hi := hfit.2 hk
      rw [hx] at hi
      rw [if_pos hk, if_pos hk]
      exact (reads_get hw.we hi).bind_nil Reads.pure
  unfold readOneVariable variableBytes
  rw [List.append_assoc]
  refine (reads_get hw.we hfit.1).bind ((reads_get1 (Nat.mod_lt _ (by decide))).bind ?_)
  refine Reads.lift_bind (kindOf_kindByte x.kind) (Reads.lift_bind hget ?_)
  exact hlast.bind_nil Reads.pure

theorem reads_varvals (dest : L2File) {s : Bool} {ps : List L2rPropVarValue} (hs : ∀ p ∈ ps, p.positive = s)
    (hfit : ∀ p ∈ ps, PropFits w (.varValue p)) (hlt : ∀ p ∈ ps, p.var < dest.vars.length) :
    Reads ((List.range ps.length).foldlM (fun dest _ => readOneVarval w s dest) dest)
      (ps.flatMap fun p => propBytes w (.varValue p))
      { dest with props := dest.props ++ ps.map .varValue } := by
  have hturn : ∀ (k : ℕ) (acc : List L2rPropVarValue), ∀ p ∈ ps,
      Reads (readOneVarval w s { dest with props := dest.props ++ acc.map .varValue })
        (propBytes w (.varValue p))
        { dest with props := dest.props ++ (acc ++ [p]).map .varValue } := by
    intro k acc p hp
    have hvar := hlt p hp
    have hget : ({ dest with props := dest.props ++ acc.map .varValue } : L2File).getVar p.var =
        .ok dest.vars[p.var] := getVar_eq_ok.mpr (List.getElem?_eq_getElem hvar)
    obtain rfl := hs p hp
    rw [List.map_append, ← List.append_assoc]
    exact (reads_get hw.wv (hfit p hp).1).bind
      ((reads_get hw.we (hfit p hp).2).bind_nil (Reads.lift_bind hget Reads.pure))
  have hloop := Reads.collect (fun dest _ => readOneVarval w s dest) _
    (fun acc => ({ dest with props := dest.props ++ acc.map .varValue } : L2File)) hturn
  simpa using hloop

theorem reads_varvars (dest : L2File) {s : Bool} {ps : List L2rPropVarVar} (hs : ∀ p ∈ ps, p.positive = s)
    (hle : ∀ p ∈ ps, p.var ≤ p.otherVar) (hfit : ∀ p ∈ ps, PropFits w (.varVar p))
    (hlt : ∀ p ∈ ps, p.var < dest.vars.length ∧ p.otherVar < dest.vars.length) :
    Reads ((List.range ps.length).foldlM (fun dest _ => readOneVarvar w s dest) dest)
      (ps.flatMap fun p => propBytes w (.varVar p))
      { dest with props := dest.props ++ ps.map .varVar } := by
  have hturn : ∀ (k : ℕ) (acc : List L2rPropVarVar), ∀ p ∈ ps,
      Reads (readOneVarvar w s { dest with props := dest.props ++ acc.map .varVar })
        (propBytes w (.varVar p))
        { dest with props := dest.props ++ (acc ++ [p]).map .varVar } := by
    intro k acc p hp
    have hget {v : ℕ} (hv : v < dest.vars.length) :
        ({ dest with props := dest.props ++ acc.map .varVar } : L2File).getVar v =
          .ok dest.vars[v] := getVar_eq_ok.mpr (List.getElem?_eq_getElem hv)
    have hmake := Translation.make_eq (hle p hp)
    obtain rfl := hs p hp
    have hlast : Reads (pure { dest with
          props := dest.props ++ acc.map .varVar ++
            [.varVar (.make p.var p.positive p.otherVar)] } : MemoryReader L2File) []
        { dest with props := dest.props ++ (acc ++ [p]).map .varVar } := by
      rw [hmake, List.map_append, ← List.append_assoc]
      exact Reads.pure
    exact (reads_get hw.wv (hfit p hp).1).bind ((reads_get hw.wv (hfit p hp).2).bind_nil
      (Reads.lift_bind (hget (hlt p hp).1) (Reads.lift_bind (hget (hlt p hp).2) hlast)))
  have hloop := Reads.collect (fun dest _ => readOneVarvar w s dest) _
    (fun acc => ({ dest with props := dest.props ++ acc.map .varVar } : L2File)) hturn
  simpa using hloop

theorem reads_oneClause {c : L2rClause} (hfit : ClauseFits w c) (hlen : c.props.length * 2 < 2 ^ 32)
    (hlt : ∀ i ∈ c.props, i < dest.props.length) :
    Reads (readOneClause w dest) (clauseBytes w c)
      { dest with clauses := dest.clauses ++ [c] } := by
  have hword : clauseWord c = c.props.length * 2 + if c.isInBackground then 1 else 0 := by
    unfold clauseWord
    rw [Nat.mod_eq_of_lt hlen]
  have hdiv : clauseWord c / 2 = c.props.length := by
    rw [hword]
    split <;> omega
  have hmod : (clauseWord c % 2 == 1) = c.isInBackground := by
    rw [hword]
    cases c.isInBackground <;> simp
  have hturn : ∀ (k : ℕ) (acc : List ℕ), ∀ i ∈ c.props,
      Reads (do
        let pid ← get w.wp
        let _ ← dest.getProp pid
        return acc ++ [pid]) (bytes w.wp i) (acc ++ [i]) := by
    intro k acc i hi
    have hprop := hlt i hi
    have hget : dest.getProp i = .ok dest.props[i] :=
      boundsCheckAccess_eq_ok.mpr (List.getElem?_eq_getElem hprop)
    exact (reads_get hw.wp (hfit.2 i hi)).bind_nil (Reads.lift_bind hget Reads.pure)
  have hprops := Reads.collect (fun props _ => do
    let pid ← get w.wp
    let _ ← dest.getProp pid
    return props ++ [pid]) _ (fun acc => acc) hturn
  unfold readOneClause clauseBytes
  refine (reads_get hw.wch hfit.1).bind ?_
  rw [hdiv, hmod]
  exact hprops.bind_nil Reads.pure

theorem reads_clauses (dest : L2File) {cs : List L2rClause} (hfit : ∀ c ∈ cs, ClauseFits w c)
    (hlen : ∀ c ∈ cs, c.props.length * 2 < 2 ^ 32)
    (hlt : ∀ c ∈ cs, ∀ i ∈ c.props, i < dest.props.length) :
    Reads ((List.range cs.length).foldlM (fun dest _ => readOneClause w dest) dest)
      (cs.flatMap (clauseBytes w)) { dest with clauses := dest.clauses ++ cs } := by
  have hturn : ∀ (k : ℕ) (acc : List L2rClause), ∀ c ∈ cs,
      Reads (readOneClause w { dest with clauses := dest.clauses ++ acc }) (clauseBytes w c)
        { dest with clauses := dest.clauses ++ (acc ++ [c]) } := by
    intro k acc c hc
    rw [← List.append_assoc]
    exact reads_oneClause hw (hfit c hc) (hlen c hc) (hlt c hc)
  have hloop := Reads.collect (fun dest _ => readOneClause w dest) _
    (fun acc => ({ dest with clauses := dest.clauses ++ acc } : L2File)) hturn
  simpa using hloop

/-- The format keeps where a nominal transition starts and the rank of a failure. -/
def Kept (x : L2rTransition) : Prop :=
  if x.isNominal then x.fromMode ≠ none ∧ x.rank = 0 else x.fromMode = none ∧ x.rank < 256

theorem reads_rankOrFrom {x : L2rTransition} (hfit : TransitionFits w x) (hx : Kept x) :
    Reads (readRankOrFrom w x.isNominal)
      (if x.isNominal then bytes w.we (unsigned x.fromMode) else [x.rank % 256])
      (x.rank, x.fromMode) := by
  unfold readRankOrFrom
  unfold Kept at hx
  cases hn : x.isNominal with
  | true =>
    rw [hn] at hx
    obtain ⟨hfrom, hrank⟩ := hx
    obtain ⟨i, hi⟩ := Option.ne_none_iff_exists'.mp hfrom
    have hlt := hfit.1 hn
    rw [hi] at hlt
    rw [hi, hrank]
    exact (reads_get hw.we hlt).bind_nil Reads.pure
  | false =>
    rw [hn] at hx
    obtain ⟨hfrom, hrank⟩ := hx
    rw [hfrom, Nat.mod_eq_of_lt hrank]
    exact (reads_get1 hrank).bind_nil Reads.pure

theorem reads_oneTransition {x : L2rTransition} {y : L2rVariable} (hfit : TransitionFits w x)
    (hx : Kept x) (hcls : ∀ c ∈ x.clauses, ∃ i < dest.clauses.length, c = some i)
    (hy : dest.vars[x.mode]? = some y) (hk : y.kind = .mode) :
    Reads (readOneTransition w x.isNominal x.mode dest) (transitionBytes w x)
      (dest.setMode x.mode y (y.mode.addTransition x)) := by
  have hturn : ∀ (k : ℕ) (acc : List (Option ℕ)), ∀ c ∈ x.clauses,
      Reads (do
        let cid ← get w.wc
        let _ ← dest.getClause cid
        return acc ++ [some cid]) (bytes w.wc (c.getD 0)) (acc ++ [c]) := by
    intro k acc c hc
    obtain ⟨i, hi, rfl⟩ := hcls c hc
    obtain ⟨j, hj, hlt⟩ := hfit.2.2.2 _ hc
    obtain rfl := Option.some.inj hj
    have hget : dest.getClause i = .ok dest.clauses[i] :=
      boundsCheckAccess_eq_ok.mpr (List.getElem?_eq_getElem hi)
    exact (reads_get hw.wc hlt).bind_nil (Reads.lift_bind hget Reads.pure)
  have hclauses := Reads.collect (fun cls _ => do
    let cid ← get w.wc
    let _ ← dest.getClause cid
    return cls ++ [some cid]) _ (fun acc => acc) hturn
  unfold readOneTransition transitionBytes
  rw [List.append_assoc, List.append_assoc]
  exact (reads_rankOrFrom hw hfit hx).bind ((reads_get hw.we hfit.2.1).bind
    ((reads_get hw.wxc hfit.2.2.1).bind (hclauses.bind_nil
      (Reads.lift (addTransition_eq hy hk)))))

theorem reads_transitions {xs : List L2rTransition} {m : ℕ} {b : Bool} {y : L2rVariable}
    (hfit : ∀ x ∈ xs, TransitionFits w x) (hx : ∀ x ∈ xs, Kept x ∧ x.mode = m ∧ x.isNominal = b)
    (hcls : ∀ x ∈ xs, ∀ c ∈ x.clauses, ∃ i < dest.clauses.length, c = some i)
    (hy : dest.vars[m]? = some y) (hk : y.kind = .mode) :
    Reads ((List.range xs.length).foldlM (fun dest _ => readOneTransition w b m dest) dest)
      (xs.flatMap (transitionBytes w))
      (dest.setMode m y (xs.foldl L2rMode.addTransition y.mode)) := by
  have hlt := (List.getElem?_eq_some_iff.mp hy).1
  have hturn : ∀ (k : ℕ) (acc : List L2rTransition), ∀ x ∈ xs,
      Reads (readOneTransition w b m (dest.setMode m y (acc.foldl L2rMode.addTransition y.mode)))
        (transitionBytes w x)
        (dest.setMode m y ((acc ++ [x]).foldl L2rMode.addTransition y.mode)) := by
    intro k acc x hxs
    obtain ⟨hkept, rfl, rfl⟩ := hx x hxs
    have hset : (dest.setMode x.mode y (acc.foldl L2rMode.addTransition y.mode)).vars[x.mode]? =
        some { y with mode := acc.foldl L2rMode.addTransition y.mode } :=
      List.getElem?_set_self hlt
    rw [← setMode_setMode dest x.mode y (acc.foldl L2rMode.addTransition y.mode)
      ((acc ++ [x]).foldl L2rMode.addTransition y.mode), List.foldl_append]
    refine reads_oneTransition hw (hfit x hxs) hkept ?_ hset hk
    exact hcls x hxs
  have hloop := Reads.collect (fun dest _ => readOneTransition w b m dest) _
    (fun acc => dest.setMode m y (acc.foldl L2rMode.addTransition y.mode)) hturn
  rwa [List.foldl_nil, setMode_self hy] at hloop

/-- The mode that is read: each transition is added in front of the nominal ones, or by its rank. -/
def modeRead (x : L2rVariable) : L2rVariable :=
  { x with mode := ⟨x.mode.nominal.reverse, x.mode.failure⟩ }

/-- What the format keeps of the transitions of `x`. -/
structure ModeKept (m : ℕ) (x : L2rVariable) : Prop where
  nominal : ∀ y ∈ x.mode.nominal, Kept y ∧ y.mode = m ∧ y.isNominal = true
  failure : ∀ y ∈ x.mode.failure, Kept y ∧ y.mode = m ∧ y.isNominal = false
  sorted : x.mode.failure.Pairwise fun y z => y.rank ≤ z.rank

theorem reads_mode {x : L2rVariable} {m : ℕ} (hfit : ModeFits w x.mode) (hx : ModeKept m x)
    (hcls : ∀ y ∈ x.mode.nominal ++ x.mode.failure, ∀ c ∈ y.clauses,
      ∃ i < dest.clauses.length, c = some i)
    (hy : dest.vars[m]? = some (Translation.bare x)) (hk : x.kind = .mode) :
    Reads (readTransitionsOf w m dest) (modeBytes w x.mode)
      { dest with vars := dest.vars.set m (modeRead x) } := by
  obtain ⟨hnominal, hfailure, hfits⟩ := hfit
  rw [List.forall_mem_append] at hfits hcls
  have hadd : x.mode.failure.foldl L2rMode.addTransition
      (x.mode.nominal.foldl L2rMode.addTransition {}) = (modeRead x).mode := by
    rw [← List.foldl_append]
    exact L2rMode.addTransition_all (fun y hy => (hx.nominal y hy).2.2)
      (fun y hy => (hx.failure y hy).2.2) hx.sorted
  have hset : (dest.setMode m (Translation.bare x)
        (x.mode.nominal.foldl L2rMode.addTransition {})).vars[m]? =
      some { x with mode := x.mode.nominal.foldl L2rMode.addTransition {} } :=
    List.getElem?_set_self (List.getElem?_eq_some_iff.mp hy).1
  have hfirst := reads_transitions hw hfits.1 hx.nominal hcls.1 hy hk
  have hsecond : Reads ((List.range x.mode.failure.length).foldlM
        (fun dest _ => readOneTransition w false m dest)
        (dest.setMode m (Translation.bare x) (x.mode.nominal.foldl L2rMode.addTransition {})))
      (x.mode.failure.flatMap (transitionBytes w))
      { dest with vars := dest.vars.set m (modeRead x) } := by
    have hmode : ({ dest with vars := dest.vars.set m (modeRead x) } : L2File) =
        (dest.setMode m (Translation.bare x) (x.mode.nominal.foldl L2rMode.addTransition {})).setMode
          m { x with mode := x.mode.nominal.foldl L2rMode.addTransition {} }
          (x.mode.failure.foldl L2rMode.addTransition
            (x.mode.nominal.foldl L2rMode.addTransition {})) := by
      rw [hadd]
      exact (setMode_setMode dest m (Translation.bare x) _ _).symm
    rw [hmode]
    refine reads_transitions hw hfits.2 hx.failure ?_ hset hk
    exact hcls.2
  have hkind : ¬ (Translation.bare x).kind ≠ .mode := not_not.mpr hk
  unfold readTransitionsOf modeBytes
  rw [List.append_assoc, List.append_assoc]
  refine Reads.lift_bind (getVar_eq_ok.mpr hy) ?_
  rw [if_neg hkind]
  exact (reads_get hw.wx hnominal).bind ((reads_get hw.wx hfailure).bind (hfirst.bind hsecond))

/-- The transitions of the variables follow each other, those that are not modes take nothing. -/
def varModeBytes (w : Widths) (x : L2rVariable) : List ℕ :=
  if x.kind = .mode then modeBytes w x.mode else []

omit hw in
theorem modes_flatMap (vars : List L2rVariable) :
    ((vars.filter fun x => x.kind = .mode).map (·.mode)).flatMap (modeBytes w) =
      vars.flatMap (varModeBytes w) := by
  induction vars with
  | nil => rfl
  | cons x vars ih =>
    rw [List.flatMap_cons, ← ih, List.filter_cons, varModeBytes]
    by_cases hk : x.kind = .mode <;> simp [hk]

/-- The first `k` variables have their transitions. -/
def partlyRead (vars : List L2rVariable) (k : ℕ) : List L2rVariable :=
  (vars.take k).map modeRead ++ (vars.drop k).map Translation.bare

omit hw in
theorem getElem?_partlyRead {vars : List L2rVariable} {k : ℕ} {x : L2rVariable}
    (hx : vars[k]? = some x) : (partlyRead vars k)[k]? = some (Translation.bare x) := by
  have hk := (List.getElem?_eq_some_iff.mp hx).1
  have hlen : ((vars.take k).map modeRead).length = k := by simp; omega
  rw [partlyRead, List.getElem?_append_right hlen.le, hlen, Nat.sub_self, List.getElem?_map,
    List.getElem?_drop, Nat.add_zero, hx]
  rfl

omit hw in
theorem partlyRead_succ {vars : List L2rVariable} {k : ℕ} {x : L2rVariable}
    (hx : vars[k]? = some x) :
    partlyRead vars (k + 1) = (partlyRead vars k).set k (modeRead x) := by
  have hk := (List.getElem?_eq_some_iff.mp hx).1
  have hlen : ((vars.take k).map modeRead).length = k := by simp; omega
  have hdrop : vars.drop k = x :: vars.drop (k + 1) := by
    rw [List.drop_eq_getElem_cons hk, List.getElem?_eq_some_iff.mp hx |>.2]
  have htake : vars.take (k + 1) = vars.take k ++ [x] := by simp [List.take_add_one, hx]
  rw [partlyRead, partlyRead, List.set_append_right _ _ hlen.le, hlen, Nat.sub_self, hdrop, htake]
  simp

/-- What the format has a place for: an initial value for the modes and only for them, a
starting mode for the nominal transitions and only for them, a rank of one byte, and no more
propositions in a clause than an `unsigned` counts twice. -/
structure Storable (f : L2File) : Prop where
  initial : ∀ x ∈ f.vars, x.kind = .mode ↔ x.initial ≠ none
  nominal : ∀ x ∈ f.vars, ∀ y ∈ x.mode.nominal, y.fromMode ≠ none
  failure : ∀ x ∈ f.vars, ∀ y ∈ x.mode.failure, y.fromMode = none ∧ y.rank < 256
  clauses : ∀ c ∈ f.clauses, c.props.length * 2 < 2 ^ 32

omit hw in
theorem Storable.modeKept (hst : Storable f) (hf : f.WellFormed) {m : ℕ} {x : L2rVariable}
    (hx : f.vars[m]? = some x) : ModeKept m x := by
  have hmem := List.mem_of_getElem? hx
  refine ⟨fun y hy => ?_, fun y hy => ?_, hf.sorted x hmem⟩
  · obtain ⟨-, hnominal, hrank, htyped⟩ := hf.nominal m x hx y hy
    refine ⟨?_, htyped.mode, hnominal⟩
    rw [Kept, if_pos hnominal]
    exact ⟨hst.nominal x hmem y hy, hrank⟩
  · obtain ⟨-, hnominal, htyped⟩ := hf.failure m x hx y hy
    refine ⟨?_, htyped.mode, hnominal⟩
    rw [Kept, hnominal]
    exact hst.failure x hmem y hy

omit hw in
theorem modeRead_of_ne (hf : f.WellFormed) {m : ℕ} {x : L2rVariable} (hx : f.vars[m]? = some x)
    (hk : ¬ x.kind = .mode) : modeRead x = Translation.bare x := by
  have hnominal : x.mode.nominal = [] :=
    List.eq_nil_iff_forall_not_mem.mpr fun y hy => hk (hf.nominal m x hx y hy).1
  have hfailure : x.mode.failure = [] :=
    List.eq_nil_iff_forall_not_mem.mpr fun y hy => hk (hf.failure m x hx y hy).1
  rw [modeRead, hnominal, hfailure]
  rfl

theorem reads_modes (hf : f.WellFormed) (hst : Storable f) (hfit : ∀ m ∈ modes f, ModeFits w m) :
    Reads ((List.range f.vars.length).foldlM (fun dest m => readTransitionsOf w m dest)
        { f with vars := partlyRead f.vars 0 })
      (f.vars.flatMap (varModeBytes w)) { f with vars := partlyRead f.vars f.vars.length } := by
  refine Reads.loop (fun k => ({ f with vars := partlyRead f.vars k } : L2File)) f.vars ?_
  intro m x hx
  have hy := getElem?_partlyRead hx
  rw [partlyRead_succ hx]
  by_cases hk : x.kind = .mode
  · have hmem : x.mode ∈ modes f :=
      List.mem_map.mpr ⟨x, List.mem_filter.mpr ⟨List.mem_of_getElem? hx, by simp [hk]⟩, rfl⟩
    have hcls : ∀ y ∈ x.mode.nominal ++ x.mode.failure, ∀ c ∈ y.clauses,
        ∃ i < f.clauses.length, c = some i := by
      intro y hy
      rcases List.mem_append.mp hy with hy | hy
      · exact (hf.nominal m x hx y hy).2.2.2.clauses
      · exact (hf.failure m x hx y hy).2.2.clauses
    rw [varModeBytes, if_pos hk]
    refine reads_mode hw (hfit _ hmem) (hst.modeKept hf hx) ?_ hy hk
    exact hcls
  · have hkind : (Translation.bare x).kind ≠ .mode := hk
    obtain ⟨hlt, hget⟩ := List.getElem?_eq_some_iff.mp hy
    rw [varModeBytes, if_neg hk, modeRead_of_ne hf hx hk, ← hget, List.set_getElem_self]
    unfold readTransitionsOf
    refine Reads.lift_bind (getVar_eq_ok.mpr hy) ?_
    rw [if_pos hkind]
    exact Reads.pure

def countsOf (f : L2File) (n : PropCounts) : Counts :=
  ⟨f.enums.length, f.vars.length, n.npos, n.nneg, n.nsame, n.ndiff, f.clauses.length⟩

theorem reads_vars (hf : f.WellFormed) (hst : Storable f) (hfit : ∀ x ∈ f.vars, VariableFits w x) :
    Reads ((List.range f.vars.length).foldlM (fun dest _ => readOneVariable w dest)
        { enums := f.enums })
      (f.vars.flatMap (variableBytes w))
      { enums := f.enums, vars := f.vars.map Translation.bare } := by
  have hturn : ∀ (k : ℕ) (acc : List L2rVariable), ∀ x ∈ f.vars,
      Reads (readOneVariable w { enums := f.enums, vars := acc.map Translation.bare })
        (variableBytes w x)
        { enums := f.enums, vars := (acc ++ [x]).map Translation.bare } := by
    intro k acc x hx
    rw [List.map_append]
    refine reads_oneVariable hw (hfit x hx) ?_ (hst.initial x hx)
    exact hf.types x hx
  exact Reads.collect (fun dest _ => readOneVariable w dest) _
    (fun acc => ({ enums := f.enums, vars := acc.map Translation.bare } : L2File)) hturn

def sectionBytes (f : L2File) (w : Widths) : List ℕ :=
  f.enums.flatMap (bytes w.we) ++ f.vars.flatMap (variableBytes w) ++
    f.props.flatMap (propBytes w) ++ f.clauses.flatMap (clauseBytes w) ++
    (modes f).flatMap (modeBytes w)

variable {pos neg : List L2rPropVarValue} {same diff : List L2rPropVarVar}

omit hw in
theorem props_flatMap (hs : Sorted f pos neg same diff) : f.props.flatMap (propBytes w) =
    pos.flatMap (fun p => propBytes w (.varValue p)) ++
      (neg.flatMap (fun p => propBytes w (.varValue p)) ++
        (same.flatMap (fun p => propBytes w (.varVar p)) ++
          diff.flatMap (fun p => propBytes w (.varVar p)))) := by
  rw [hs.props]
  simp only [List.flatMap_append, List.flatMap_map, List.append_assoc]

theorem reads_sections (hf : f.WellFormed) (hst : Storable f) (hs : Sorted f pos neg same diff)
    (hle : ∀ p ∈ same ++ diff, p.var ≤ p.otherVar)
    (hfit : FileFits f w (counts pos neg same diff)) :
    Reads (readSections w (countsOf f (counts pos neg same diff))) (sectionBytes f w)
      { f with vars := f.vars.map modeRead } := by
  rw [List.forall_mem_append] at hle
  have hprops := hfit.props
  have htyped := hf.props
  rw [hs.props] at hprops htyped
  simp only [List.forall_mem_append, List.forall_mem_map] at hprops htyped
  obtain ⟨⟨hpos, hneg⟩, hsame, hdiff⟩ := hprops
  obtain ⟨⟨tpos, tneg⟩, tsame, tdiff⟩ := htyped
  have hlen : (f.vars.map Translation.bare).length = f.vars.length := List.length_map ..
  -- the file after each of the loops over the propositions
  let dest (ps : List L2rProposition) : L2File :=
    { enums := f.enums, vars := f.vars.map Translation.bare, props := ps }
  have h₁ := reads_varvals hw (dest []) hs.pos hpos fun p hp => hlen ▸ (tpos p hp).1
  have h₂ := reads_varvals hw (dest (pos.map .varValue)) hs.neg hneg
    fun p hp => hlen ▸ (tneg p hp).1
  have h₃ := reads_varvars hw (dest (pos.map .varValue ++ neg.map .varValue)) hs.same hle.1 hsame
    fun p hp => hlen ▸ ⟨(tsame p hp).1, (tsame p hp).2.1⟩
  have h₄ := reads_varvars hw
    (dest (pos.map .varValue ++ neg.map .varValue ++ same.map .varVar)) hs.diff hle.2 hdiff
    fun p hp => hlen ▸ ⟨(tdiff p hp).1, (tdiff p hp).2.1⟩
  have hall : pos.map .varValue ++ neg.map .varValue ++ same.map .varVar ++ diff.map .varVar =
      f.props := by rw [hs.props, List.append_assoc]
  simp only [dest, hall] at h₄
  have hclauses := reads_clauses hw (dest f.props) hfit.clauses hst.clauses hf.clauses
  have hmodes := reads_modes hw hf hst hfit.modes
  have hlast : partlyRead f.vars f.vars.length = f.vars.map modeRead := by simp [partlyRead]
  rw [hlast, ← hlen] at hmodes
  unfold sectionBytes modes
  rw [props_flatMap hs, modes_flatMap]
  simp only [List.append_assoc]
  unfold readSections
  exact (reads_enums hw hfit.enums).bind ((reads_vars hw hf hst hfit.vars).bind
    (h₁.bind (h₂.bind (h₃.bind (h₄.bind (hclauses.bind hmodes))))))

end

/-- The widths that the reader finds: a width of four bytes is taken for zero. -/
def decoded (w : Widths) : Widths :=
  ⟨w.we % 4, w.wv % 4, w.wp % 4, w.wc % 4, w.wch % 4, w.wx % 4, w.wxc % 4⟩

theorem assert_pos {p : Prop} [Decidable p] (h : p) : assert (decide p) = .ok () :=
  if_pos (decide_eq_true h)

theorem assert_neg {p : Prop} [Decidable p] (h : ¬ p) : assert (decide p) = .error .assertion :=
  if_neg (by simpa using h)

section
variable {w : Widths} (hw : ∀ v ∈ [w.we, w.wv, w.wp, w.wc, w.wch, w.wx, w.wxc], TwoBits v)
include hw

def weightBytes (w : Widths) : List ℕ :=
  [packed [w.we, w.wv, w.wp, w.wc] % 256] ++ [packed [w.wch, w.wx, w.wxc] % 256]

omit hw in
theorem packed_four (w : Widths) : packed [w.we, w.wv, w.wp, w.wc] =
    (((w.we - 1) * 4 + (w.wv - 1)) * 4 + (w.wp - 1)) * 4 + (w.wc - 1) := by simp [packed]

omit hw in
theorem packed_three (w : Widths) : packed [w.wch, w.wx, w.wxc] =
    ((w.wch - 1) * 4 + (w.wx - 1)) * 4 + (w.wxc - 1) := by simp [packed]

omit hw in
theorem assert_four : assert (packed [w.we, w.wv, w.wp, w.wc] % 256 / 4 / 4 / 4 / 4 = 0) = .ok () := by
  refine assert_pos ?_
  omega

/-- The width of the first word of a clause is not shifted out before the assertion. -/
theorem assert_three :
    assert (packed [w.wch, w.wx, w.wxc] % 256 / 4 / 4 = 0) =
      if w.wch = 1 then .ok () else .error .assertion := by
  simp only [List.forall_mem_cons, List.not_mem_nil, false_imp_iff, implies_true, and_true,
    TwoBits] at hw
  rw [packed_three]
  split
  · exact assert_pos (by omega)
  · exact assert_neg (by omega)

theorem reads_weights (hch : w.wch = 1) : Reads readWeights (weightBytes w) (decoded w) := by
  have h₁ := assert_four (w := w)
  have h₂ := assert_three hw
  rw [if_pos hch] at h₂
  simp only [List.forall_mem_cons, List.not_mem_nil, false_imp_iff, implies_true, and_true,
    TwoBits] at hw
  refine (reads_get1 (Nat.mod_lt _ (by decide))).bind (Reads.lift_bind h₁
    ((reads_get1 (Nat.mod_lt _ (by decide))).bind_nil (Reads.lift_bind h₂ (Reads.pure_eq ?_))))
  rw [packed_four, packed_three, decoded, Widths.mk.injEq]
  omega

theorem readWeights_error (hch : w.wch ≠ 1) (rest : List ℕ) :
    readWeights (weightBytes w ++ rest) = .error .assertion := by
  have h₁ := assert_four (w := w)
  have h₂ := assert_three hw
  rw [if_neg hch] at h₂
  unfold readWeights weightBytes
  rw [List.append_assoc, (reads_get1 (Nat.mod_lt _ (by decide))).run_bind, lift_run h₁,
    (reads_get1 (Nat.mod_lt _ (by decide))).run_bind, lift_error h₂]

end

def cookieBytes : List ℕ := [76, 50, 98, 105, 0, 3, 0, 0, 0, 0]

theorem readHeader_cookie (rest : List ℕ) : readHeader (cookieBytes ++ rest) =
    (readWeights >>= fun w => readCounts w >>= fun n => pure (some (w, n))) rest := rfl

def countBytes (f : L2File) (w : Widths) (n : PropCounts) : List ℕ :=
  bytes w.we f.enums.length ++ (bytes w.wv f.vars.length ++ (bytes w.wp n.npos ++
    (bytes w.wp n.nneg ++ (bytes w.wp n.nsame ++ (bytes w.wp n.ndiff ++
      bytes w.wc f.clauses.length)))))

theorem fileBytes_eq (f : L2File) (w : Widths) (n : PropCounts) : fileBytes f w n =
    cookieBytes ++ (weightBytes w ++ (countBytes f w n ++ sectionBytes f w)) := by
  simp [fileBytes, headerBytes, cookieBytes, weightBytes, countBytes, sectionBytes, bytes]

theorem reads_counts {f : L2File} {w : Widths} {n : PropCounts} (hw : Narrow w)
    (h : HeaderFits f w n) : Reads (readCounts w) (countBytes f w n) (countsOf f n) := by
  have hp := h.props
  simp only [List.forall_mem_cons, List.not_mem_nil, false_imp_iff, implies_true, and_true] at hp
  obtain ⟨hpos, hneg, hsame, hdiff⟩ := hp
  exact (reads_get hw.we h.enums).bind ((reads_get hw.wv h.vars).bind
    ((reads_get hw.wp hpos).bind ((reads_get hw.wp hneg).bind ((reads_get hw.wp hsame).bind
      ((reads_get hw.wp hdiff).bind ((reads_get hw.wc h.clauses).bind_nil Reads.pure))))))

end Livingstone.FromMemory
