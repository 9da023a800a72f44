import Livingstone.Lib.Loop
import Livingstone.Readers.ToBin

/-! The bytes that the writer of binary models writes, and when it writes them: each value
must fit in the bytes of its field, and each width in two bits. -/

namespace Livingstone.ToBin

open Codec

variable {f : L2File} {w : Widths} {n : PropCounts}

theorem flip_snd (width newval value : ℕ) : (flip width newval value).2 = value / 256 ^ width := by
  induction width generalizing newval value with
  | zero => simp [flip]
  | succ width ih => rw [flip, ih, Nat.div_div_eq_div_mul, pow_succ']

theorem emit_flip (width k newval value : ℕ) :
    emit (width + k) (flip width newval value).1 = bytes width value ++ emit k newval := by
  induction width generalizing newval value k with
  | zero => simp [flip, bytes]
  | succ width ih =>
    rw [flip, Nat.add_right_comm, Nat.add_assoc, ih, bytes, emit, List.append_assoc]
    have hmod : (newval * 256 + value % 256) % 256 = value % 256 := by omega
    have hdiv : (newval * 256 + value % 256) / 256 = newval := by omega
    rw [hmod, hdiv]
    rfl

theorem put_writes (width value : ℕ) :
    Writes (put width value) (value < 256 ^ width) (bytes width value) := by
  intro r
  have hbytes := emit_flip width 0 0 value
  rw [Nat.add_zero, emit, List.append_nil] at hbytes
  have hzero : (flip width 0 value).2 = 0 ↔ value < 256 ^ width := by
    rw [flip_snd, Nat.div_eq_zero_iff]
    simp
  unfold put
  simp only [hzero, hbytes]
  split
  · next hlt => simp [hlt, eq_comm]
  · next hlt => simp [hlt]

theorem put1_writes (c : ℕ) : Writes (put1 c) True [c % 256] := Writes.ok

theorem widthLoop_eq {fuel val : ℕ} (h : val ≤ fuel) : widthLoop fuel val = width val := by
  induction fuel generalizing val with
  | zero =>
    obtain rfl := Nat.le_zero.mp h
    rfl
  | succ fuel ih =>
    unfold widthLoop
    split
    · next hz => rw [hz]; rfl
    · next hz =>
      have hpos : 0 < val := Nat.pos_of_ne_zero hz
      rw [ih (by omega)]
      simp [width, Nat.digits_def' (by decide : 1 < 256) hpos]

theorem widthOfInt_eq (val : ℕ) : widthOfInt val = width val := widthLoop_eq le_rfl

def TwoBits (w : ℕ) : Prop := 1 ≤ w ∧ w ≤ 4

theorem widthToTwoBits_eq_ok {w c : ℕ} : widthToTwoBits w = .ok c ↔ TwoBits w ∧ c = w - 1 := by
  by_cases hw : TwoBits w
  · rw [and_iff_right hw]
    obtain ⟨h₁, h₄⟩ := hw
    interval_cases w <;> simp [widthToTwoBits, eq_comm]
  · have herr : widthToTwoBits w =
        .error (.fatal ("width of " ++ Nat.repr w ++ " does not fit in 2 bits")) := by
      unfold TwoBits at hw
      unfold widthToTwoBits
      split <;> first | omega | rfl
    simp [herr, hw]

def packed (ws : List ℕ) : ℕ := ws.foldl (fun pack w => pack * 4 + (w - 1)) 0

theorem foldlM_widthToTwoBits {ws : List ℕ} {pack r : ℕ} :
    ws.foldlM (fun pack w => do return pack * 4 + (← widthToTwoBits w)) pack = .ok r ↔
      (∀ w ∈ ws, TwoBits w) ∧ r = ws.foldl (fun pack w => pack * 4 + (w - 1)) pack := by
  induction ws generalizing pack with
  | nil => simp [pure, Except.pure, eq_comm]
  | cons w ws ih =>
    rw [List.foldlM_cons, List.foldl_cons, List.forall_mem_cons]
    cases hc : widthToTwoBits w with
    | error e =>
      have hnot : ¬ TwoBits w := fun ht => by
        cases hc.symm.trans (widthToTwoBits_eq_ok.mpr ⟨ht, rfl⟩)
      simp [hnot, bind, Except.bind]
    | ok c =>
      obtain ⟨ht, rfl⟩ := widthToTwoBits_eq_ok.mp hc
      rw [and_assoc, and_iff_right ht, ← ih]
      rfl

theorem putWidths_writes (ws : List ℕ) :
    Writes (putWidths ws) (∀ w ∈ ws, TwoBits w) [packed ws % 256] := by
  intro r
  unfold putWidths
  cases hp : ws.foldlM (fun pack w => do return pack * 4 + (← widthToTwoBits w)) 0 with
  | error e =>
    have hnot : ¬ ∀ w ∈ ws, TwoBits w := fun hall => by
      cases hp.symm.trans (foldlM_widthToTwoBits.mpr ⟨hall, rfl⟩)
    simp [hnot, bind, Except.bind]
  | ok pack =>
    obtain ⟨hall, rfl⟩ := foldlM_widthToTwoBits.mp hp
    rw [and_iff_right hall]
    simp [bind, Except.bind, put1, packed, eq_comm]

def headerBytes (f : L2File) (w : Widths) (n : PropCounts) : List ℕ :=
  [76] ++ [50] ++ [98] ++ [105] ++ bytes 2 3 ++ bytes 4 0 ++
    [packed [w.we, w.wv, w.wp, w.wc] % 256] ++ [packed [w.wch, w.wx, w.wxc] % 256] ++
    bytes w.we f.enums.length ++ bytes w.wv f.vars.length ++ bytes w.wp n.npos ++
    bytes w.wp n.nneg ++ bytes w.wp n.nsame ++ bytes w.wp n.ndiff ++ bytes w.wc f.clauses.length

structure HeaderFits (f : L2File) (w : Widths) (n : PropCounts) : Prop where
  widths : ∀ v ∈ [w.we, w.wv, w.wp, w.wc, w.wch, w.wx, w.wxc], TwoBits v
  enums : f.enums.length < 256 ^ w.we
  vars : f.vars.length < 256 ^ w.wv
  props : ∀ k ∈ [n.npos, n.nneg, n.nsame, n.ndiff], k < 256 ^ w.wp
  clauses : f.clauses.length < 256 ^ w.wc

theorem writeHeader_writes : Writes (writeHeader f w n) (HeaderFits f w n) (headerBytes f w n) := by
  have h := (((((((((((((((put1_writes 76).append (put1_writes 50)).append (put1_writes 98)).append
    (put1_writes 105)).append (put_writes 2 3)).append (put_writes 4 0)).append
    (putWidths_writes [w.we, w.wv, w.wp, w.wc])).append
    (putWidths_writes [w.wch, w.wx, w.wxc])).append (put_writes w.we f.enums.length)).append
    (put_writes w.wv f.vars.length)).append (put_writes w.wp n.npos)).append
    (put_writes w.wp n.nneg)).append (put_writes w.wp n.nsame)).append
    (put_writes w.wp n.ndiff)).append (put_writes w.wc f.clauses.length))
  refine h.congr ⟨fun hr => ?_, fun ⟨hw, he, hv, hp, hc⟩ => ?_⟩
  · simp only [List.forall_mem_cons, List.not_mem_nil, false_imp_iff, implies_true, and_true] at hr
    refine ⟨?_, by tauto, by tauto, ?_, by tauto⟩
    · simp only [List.forall_mem_cons, List.not_mem_nil, false_imp_iff, implies_true, and_true]
      tauto
    · simp only [List.forall_mem_cons, List.not_mem_nil, false_imp_iff, implies_true, and_true]
      tauto
  · simp only [List.forall_mem_cons, List.not_mem_nil, false_imp_iff, implies_true,
      and_true] at hw hp ⊢
    have h3 : 3 < 256 ^ 2 := by decide
    have h0 : 0 < 256 ^ 4 := by decide
    tauto

def variableBytes (w : Widths) (x : L2rVariable) : List ℕ :=
  bytes w.we x.type ++ [kindByte x.kind % 256] ++
    if x.kind = .mode then bytes w.we (unsigned x.initial) else []

def VariableFits (w : Widths) (x : L2rVariable) : Prop :=
  x.type < 256 ^ w.we ∧ (x.kind = .mode → unsigned x.initial < 256 ^ w.we)

theorem writeOneVariable_writes (x : L2rVariable) :
    Writes (writeOneVariable w x) (VariableFits w x) (variableBytes w x) := by
  have hinitial : Writes (if x.kind = .mode then put w.we (unsigned x.initial) else .ok [])
      (x.kind = .mode → unsigned x.initial < 256 ^ w.we)
      (if x.kind = .mode then bytes w.we (unsigned x.initial) else []) := by
    split
    · next hk => exact (put_writes w.we _).congr (by simp [hk])
    · next hk => exact Writes.ok.congr (by simp [hk])
  exact (((put_writes w.we x.type).append (put1_writes _)).append hinitial).congr
    (by simp [VariableFits])

def propBytes (w : Widths) : L2rProposition → List ℕ
  | .varValue p => bytes w.wv p.var ++ bytes w.we p.value
  | .varVar p => bytes w.wv p.var ++ bytes w.wv p.otherVar

def PropFits (w : Widths) : L2rProposition → Prop
  | .varValue p => p.var < 256 ^ w.wv ∧ p.value < 256 ^ w.we
  | .varVar p => p.var < 256 ^ w.wv ∧ p.otherVar < 256 ^ w.wv

theorem writeOneVarvalue_writes {id : ℕ} {p : L2rPropVarValue}
    (hp : f.props[id]? = some (.varValue p)) :
    Writes (writeOneVarvalue f w id) (PropFits w (.varValue p)) (propBytes w (.varValue p)) := by
  have hget : f.getProp id = .ok (.varValue p) := boundsCheckAccess_eq_ok.mpr hp
  unfold writeOneVarvalue
  rw [hget]
  exact (put_writes w.wv p.var).append (put_writes w.we p.value)

theorem writeOneVarvar_writes {id : ℕ} {p : L2rPropVarVar}
    (hp : f.props[id]? = some (.varVar p)) :
    Writes (writeOneVarvar f w id) (PropFits w (.varVar p)) (propBytes w (.varVar p)) := by
  have hget : f.getProp id = .ok (.varVar p) := boundsCheckAccess_eq_ok.mpr hp
  unfold writeOneVarvar
  rw [hget]
  exact (put_writes w.wv p.var).append (put_writes w.wv p.otherVar)

def clauseWord (c : L2rClause) : ℕ :=
  c.props.length * 2 % 2 ^ 32 + if c.isInBackground then 1 else 0

def clauseBytes (w : Widths) (c : L2rClause) : List ℕ :=
  bytes w.wch (clauseWord c) ++ c.props.flatMap (bytes w.wp)

def ClauseFits (w : Widths) (c : L2rClause) : Prop :=
  clauseWord c < 256 ^ w.wch ∧ ∀ i ∈ c.props, i < 256 ^ w.wp

theorem writeOneClause_writes (c : L2rClause) :
    Writes (writeOneClause w c) (ClauseFits w c) (clauseBytes w c) :=
  (put_writes w.wch _).append (Writes.all fun i _ => put_writes w.wp i)

def transitionBytes (w : Widths) (x : L2rTransition) : List ℕ :=
  (if x.isNominal then bytes w.we (unsigned x.fromMode) else [x.rank % 256]) ++
    bytes w.we x.toMode ++ bytes w.wxc x.clauses.length ++
    x.clauses.flatMap fun c => bytes w.wc (c.getD 0)

def TransitionFits (w : Widths) (x : L2rTransition) : Prop :=
  (x.isNominal = true → unsigned x.fromMode < 256 ^ w.we) ∧ x.toMode < 256 ^ w.we ∧
    x.clauses.length < 256 ^ w.wxc ∧ ∀ c ∈ x.clauses, ∃ i, c = some i ∧ i < 256 ^ w.wc

theorem writeOneTransition_writes (x : L2rTransition) :
    Writes (writeOneTransition w x) (TransitionFits w x) (transitionBytes w x) := by
  have hfirst : Writes (if x.isNominal then put w.we (unsigned x.fromMode) else put1 x.rank)
      (x.isNominal = true → unsigned x.fromMode < 256 ^ w.we)
      (if x.isNominal then bytes w.we (unsigned x.fromMode) else [x.rank % 256]) := by
    cases hn : x.isNominal with
    | true => exact (put_writes w.we _).congr (by simp)
    | false => exact (put1_writes x.rank).congr (by simp)
  have hclauses : Writes (writeAll (putClause w) x.clauses)
      (∀ c ∈ x.clauses, ∃ i, c = some i ∧ i < 256 ^ w.wc)
      (x.clauses.flatMap fun c => bytes w.wc (c.getD 0)) := by
    refine Writes.all fun c _ => ?_
    cases c with
    | some i => exact (put_writes w.wc i).congr (by simp)
    | none => exact fun r => by simp [putClause]
  exact (((hfirst.append (put_writes w.we x.toMode)).append
    (put_writes w.wxc x.clauses.length)).append hclauses).congr
    (by simp only [TransitionFits, and_assoc])

def modeBytes (w : Widths) (m : L2rMode) : List ℕ :=
  bytes w.wx m.nominal.length ++ bytes w.wx m.failure.length ++
    m.nominal.flatMap (transitionBytes w) ++ m.failure.flatMap (transitionBytes w)

def ModeFits (w : Widths) (m : L2rMode) : Prop :=
  m.nominal.length < 256 ^ w.wx ∧ m.failure.length < 256 ^ w.wx ∧
    ∀ x ∈ m.nominal ++ m.failure, TransitionFits w x

theorem writeMode_writes (m : L2rMode) : Writes (writeMode w m) (ModeFits w m) (modeBytes w m) := by
  refine ((((put_writes w.wx m.nominal.length).append (put_writes w.wx m.failure.length)).append
    (Writes.all fun x _ => writeOneTransition_writes x)).append
    (Writes.all fun x _ => writeOneTransition_writes x)).congr ?_
  simp only [ModeFits, List.forall_mem_append, and_assoc]

/-- The propositions come as the format has them: values that variables have, values that they
do not have, variables that are equal, variables that differ. -/
structure Sorted (f : L2File) (pos neg : List L2rPropVarValue) (same diff : List L2rPropVarVar) :
    Prop where
  props : f.props = pos.map .varValue ++ neg.map .varValue ++ (same.map .varVar ++ diff.map .varVar)
  pos : ∀ p ∈ pos, p.positive = true
  neg : ∀ p ∈ neg, p.positive = false
  same : ∀ p ∈ same, p.positive = true
  diff : ∀ p ∈ diff, p.positive = false

section
variable {pos neg : List L2rPropVarValue} {same diff : List L2rPropVarVar}

def counts (pos neg : List L2rPropVarValue) (same diff : List L2rPropVarVar) : PropCounts :=
  ⟨pos.length, neg.length, same.length, diff.length⟩

theorem countP_varValue {ps : List L2rPropVarValue} {s b e : Bool} (h : ∀ p ∈ ps, p.positive = s) :
    (ps.map L2rProposition.varValue).countP (fun p => p.isPositive == b && p.isEquality == e) =
      if s = b ∧ e = false then ps.length else 0 := by
  induction ps with
  | nil => simp
  | cons p ps ih =>
    rw [List.map_cons, List.countP_cons, ih fun q hq => h q (List.mem_cons_of_mem p hq)]
    simp only [L2rProposition.isPositive, L2rProposition.isEquality, h p List.mem_cons_self]
    cases s <;> cases b <;> cases e <;> simp

theorem countP_varVar {ps : List L2rPropVarVar} {s b e : Bool} (h : ∀ p ∈ ps, p.positive = s) :
    (ps.map L2rProposition.varVar).countP (fun p => p.isPositive == b && p.isEquality == e) =
      if s = b ∧ e = true then ps.length else 0 := by
  induction ps with
  | nil => simp
  | cons p ps ih =>
    rw [List.map_cons, List.countP_cons, ih fun q hq => h q (List.mem_cons_of_mem p hq)]
    simp only [L2rProposition.isPositive, L2rProposition.isEquality, h p List.mem_cons_self]
    cases s <;> cases b <;> cases e <;> simp

theorem countProps_eq (h : Sorted f pos neg same diff) :
    countProps f = .ok (counts pos neg same diff) := by
  unfold countProps
  simp only [h.props, List.countP_append, countP_varValue h.pos, countP_varValue h.neg,
    countP_varVar h.same, countP_varVar h.diff, List.length_append, List.length_map]
  simp [counts, Nat.add_assoc]

theorem getElem?_middle {α : Type} {pre ps post : List α} {i : ℕ} {p : α} (h : ps[i]? = some p) :
    (pre ++ ps ++ post)[pre.length + i]? = some p := by
  have hlt := (List.getElem?_eq_some_iff.mp h).1
  rw [List.append_assoc, List.getElem?_append_right (by omega), Nat.add_sub_cancel_left,
    List.getElem?_append_left hlt, h]

theorem checkRun_ok (pre ps post : List L2rProposition) {start count : ℕ}
    {positive equality : Bool} (hf : f.props = pre ++ ps ++ post)
    (hstart : start = pre.length) (hcount : count = ps.length)
    (h : ∀ p ∈ ps, p.isPositive = positive ∧ p.isEquality = equality) :
    checkRun f start count positive equality = .ok () := by
  unfold checkRun
  refine Loop.foldlM_skip fun i hi => ?_
  have hlt : i < ps.length := hcount ▸ List.mem_range.mp hi
  have hp : ps[i]? = some ps[i] := List.getElem?_eq_getElem hlt
  have hget : f.getProp (start + i) = .ok ps[i] :=
    boundsCheckAccess_eq_ok.mpr (hf ▸ hstart ▸ getElem?_middle hp)
  simp only [hget, bind, Except.bind]
  exact if_pos (h _ (List.mem_of_getElem? hp))

theorem checkSorted_eq (h : Sorted f pos neg same diff) :
    checkSorted f (counts pos neg same diff) = .ok () := by
  have hclass {ps : List L2rPropVarValue} {s : Bool} (hps : ∀ p ∈ ps, p.positive = s) :
      ∀ p ∈ ps.map L2rProposition.varValue, p.isPositive = s ∧ p.isEquality = false := by
    intro p hp
    obtain ⟨q, hq, rfl⟩ := List.mem_map.mp hp
    exact ⟨hps q hq, rfl⟩
  have hclass' {ps : List L2rPropVarVar} {s : Bool} (hps : ∀ p ∈ ps, p.positive = s) :
      ∀ p ∈ ps.map L2rProposition.varVar, p.isPositive = s ∧ p.isEquality = true := by
    intro p hp
    obtain ⟨q, hq, rfl⟩ := List.mem_map.mp hp
    exact ⟨hps q hq, rfl⟩
  have h₁ : checkRun f 0 pos.length true false = .ok () :=
    checkRun_ok [] _ _ (h.props.trans (List.append_assoc _ _ _)) rfl (List.length_map ..).symm
      (hclass h.pos)
  have h₂ : checkRun f pos.length neg.length false false = .ok () :=
    checkRun_ok _ _ _ h.props (List.length_map ..).symm (List.length_map ..).symm (hclass h.neg)
  have h₃ : checkRun f (pos.length + neg.length) same.length true true = .ok () :=
    checkRun_ok _ _ _ (h.props.trans (List.append_assoc _ _ _).symm) (by simp)
      (List.length_map ..).symm (hclass' h.same)
  have h₄ : checkRun f (pos.length + neg.length + same.length) diff.length false true = .ok () :=
    checkRun_ok _ _ []
      (h.props.trans ((List.append_assoc _ _ _).symm.trans (List.append_nil _).symm))
      (by simp [Nat.add_assoc])
      (List.length_map ..).symm (hclass' h.diff)
  unfold checkSorted counts
  simp only [h₁, h₂, h₃, h₄, bind, Except.bind]

theorem writeAll_props (writer : ℕ → Writer ReaderError) (pre ps post : List L2rProposition)
    (hf : f.props = pre ++ ps ++ post)
    (h : ∀ id, ∀ p ∈ ps, f.props[id]? = some p → Writes (writer id) (PropFits w p) (propBytes w p)) :
    Writes (writeAll writer (List.range' pre.length ps.length)) (∀ p ∈ ps, PropFits w p)
      (ps.flatMap (propBytes w)) := by
  induction ps generalizing pre with
  | nil => exact Writes.ok.congr (by simp)
  | cons p ps ih =>
    have hp : f.props[pre.length]? = some p := by
      rw [hf, ← Nat.add_zero pre.length]
      exact getElem?_middle rfl
    have htail := ih (pre ++ [p]) (by rw [hf]; simp) fun id q hq =>
      h id q (List.mem_cons_of_mem p hq)
    rw [List.length_append, List.length_singleton] at htail
    exact ((h pre.length p List.mem_cons_self hp).append htail).congr (by simp)

theorem writeProps_writes (h : Sorted f pos neg same diff) :
    Writes (writeProps f w (counts pos neg same diff)) (∀ p ∈ f.props, PropFits w p)
      (f.props.flatMap (propBytes w)) := by
  have hvalue := writeAll_props (w := w) (writeOneVarvalue f w) []
    (pos.map .varValue ++ neg.map .varValue) (same.map .varVar ++ diff.map .varVar)
    (by simpa using h.props) fun id p hp hid => by
      rw [← List.map_append] at hp
      obtain ⟨q, -, rfl⟩ := List.mem_map.mp hp
      exact writeOneVarvalue_writes hid
  have hvar := writeAll_props (w := w) (writeOneVarvar f w)
    (pos.map .varValue ++ neg.map .varValue) (same.map .varVar ++ diff.map .varVar) []
    (by simpa using h.props) fun id p hp hid => by
      rw [← List.map_append] at hp
      obtain ⟨q, -, rfl⟩ := List.mem_map.mp hp
      exact writeOneVarvar_writes hid
  rw [List.length_append, List.length_map, List.length_map] at hvalue hvar
  unfold writeProps
  rw [List.range_eq_range', h.props, List.flatMap_append]
  refine (hvalue.append ?_).congr List.forall_mem_append.symm
  simpa [counts] using hvar

def fileBytes (f : L2File) (w : Widths) (n : PropCounts) : List ℕ :=
  headerBytes f w n ++ f.enums.flatMap (bytes w.we) ++ f.vars.flatMap (variableBytes w) ++
    f.props.flatMap (propBytes w) ++ f.clauses.flatMap (clauseBytes w) ++
    (modes f).flatMap (modeBytes w)

structure FileFits (f : L2File) (w : Widths) (n : PropCounts) : Prop where
  header : HeaderFits f w n
  enums : ∀ k ∈ f.enums, k < 256 ^ w.we
  vars : ∀ x ∈ f.vars, VariableFits w x
  props : ∀ p ∈ f.props, PropFits w p
  clauses : ∀ c ∈ f.clauses, ClauseFits w c
  modes : ∀ m ∈ modes f, ModeFits w m

theorem write_writes (h : Sorted f pos neg same diff) :
    Writes (write f) (FileFits f (widths f) (counts pos neg same diff))
      (fileBytes f (widths f) (counts pos neg same diff)) := by
  have heq : write f = (writeHeader f (widths f) (counts pos neg same diff) ++
      writeEnums f (widths f) ++ writeVariables f (widths f) ++
      writeProps f (widths f) (counts pos neg same diff) ++ writeClauses f (widths f) ++
      writeTransitions f (widths f) : Writer ReaderError) := by
    unfold write
    rw [countProps_eq h]
    simp only [bind, Except.bind, checkSorted_eq h]
  rw [heq]
  refine (((((writeHeader_writes.append (Writes.all fun k _ => put_writes _ k)).append
    (Writes.all fun x _ => writeOneVariable_writes x)).append (writeProps_writes h)).append
    (Writes.all fun c _ => writeOneClause_writes c)).append
    (Writes.all fun m _ => writeMode_writes m)).congr ⟨?_, ?_⟩
  · intro ⟨⟨⟨⟨⟨h₁, h₂⟩, h₃⟩, h₄⟩, h₅⟩, h₆⟩
    exact ⟨h₁, h₂, h₃, h₄, h₅, h₆⟩
  · intro ⟨h₁, h₂, h₃, h₄, h₅, h₆⟩
    exact ⟨⟨⟨⟨⟨h₁, h₂⟩, h₃⟩, h₄⟩, h₅⟩, h₆⟩

end

end Livingstone.ToBin
