import Livingstone.Proofs.BinaryModel

/-! A model that is written in the binary format comes back as it was, but for the order of the
nominal transitions, if and only if its fields are one to three bytes wide, the first word of
a clause takes one, and the model holds nothing that the format has no place for. -/

namespace Livingstone.FromMemory

open Codec ToBin L2File

theorem returns_get {width : ℕ} : Returns (get width) fun v => width = 0 → v = 0 := by
  cases width with
  | zero => exact Returns.pure fun _ => rfl
  | succ width => exact fun _ _ _ _ h => absurd h (Nat.succ_ne_zero width)

theorem returns_get1 : Returns get1 fun c => c < 256 := by
  intro s c s' h
  cases s with
  | nil => cases h
  | cons b s =>
    obtain ⟨rfl, -⟩ := Prod.mk.inj (Except.ok.inj h)
    exact Nat.mod_lt b (by decide)

/-- What a transition in one of the lists of a mode is like. -/
structure Restored (w : Widths) (b : Bool) (y : L2rTransition) : Prop where
  nominal : b = true → y.fromMode ≠ none
  failure : b = false → y.fromMode = none ∧ y.rank < 256
  clauses : w.wxc = 0 → y.clauses = []
  counted : w.wx ≠ 0

structure VarRestored (w : Widths) (x : L2rVariable) : Prop where
  initial : x.kind = .mode ↔ x.initial ≠ none
  nominal : ∀ y ∈ x.mode.nominal, Restored w true y
  failure : ∀ y ∈ x.mode.failure, Restored w false y

/-- A file that the reader has built so far, with its numbers of enumerations, variables,
propositions and clauses. -/
structure Built (w : Widths) (e v p c : ℕ) (dest : L2File) : Prop where
  enums : dest.enums.length = e
  vars : dest.vars.length = v
  props : dest.props.length = p
  clauses : dest.clauses.length = c
  restored : ∀ x ∈ dest.vars, VarRestored w x

theorem mem_insertFailure {x y : L2rTransition} {xs : List L2rTransition}
    (h : y ∈ insertFailure x xs) : y = x ∨ y ∈ xs := by
  induction xs with
  | nil => exact Or.inl (List.mem_singleton.mp h)
  | cons z zs ih =>
    rw [insertFailure] at h
    split at h
    · exact List.mem_cons.mp h
    · rcases List.mem_cons.mp h with rfl | h
      · exact Or.inr List.mem_cons_self
      · exact (ih h).imp_right (List.mem_cons_of_mem z)

section
variable {w : Widths} {e v p c : ℕ} {dest : L2File}

theorem VarRestored.addTransition {x : L2rVariable} (h : VarRestored w x) {y : L2rTransition}
    (hy : Restored w y.isNominal y) :
    VarRestored w { x with mode := x.mode.addTransition y } := by
  refine ⟨h.initial, fun z hz => ?_, fun z hz => ?_⟩
  · unfold L2rMode.addTransition at hz
    split at hz
    · next hn =>
      rcases List.mem_cons.mp hz with rfl | hz
      · exact hn ▸ hy
      · exact h.nominal z hz
    · exact h.nominal z hz
  · unfold L2rMode.addTransition at hz
    split at hz
    · exact h.failure z hz
    · next hn =>
      rcases mem_insertFailure hz with rfl | hz
      · rw [Bool.not_eq_true] at hn
        exact hn ▸ hy
      · exact h.failure z hz

theorem Built.addTransition {g : L2File} {y : L2rTransition} (h : Built w e v p c dest)
    (hy : Restored w y.isNominal y) (hadd : dest.addTransition y = .ok g) :
    Built w e v p c g := by
  unfold L2File.addTransition at hadd
  split at hadd
  · cases hadd
  · next x hx =>
    split at hadd
    · obtain rfl := Except.ok.inj hadd
      refine ⟨h.enums, List.length_set.trans h.vars, h.props, h.clauses, fun z hz => ?_⟩
      rcases List.mem_or_eq_of_mem_set hz with hz | rfl
      · exact h.restored z hz
      · exact (h.restored x (List.mem_of_getElem? hx)).addTransition hy
    · cases hadd

theorem returns_oneEnum (h : Built w e v p c dest) :
    Returns (readOneEnum w dest) (Built w (e + 1) v p c) := by
  refine Returns.any.bind fun k _ => Returns.pure ?_
  exact ⟨by simp [h.enums], h.vars, h.props, h.clauses, h.restored⟩

theorem returns_initial (k : VarKind) :
    Returns (readInitial w k) fun initial => k = .mode ↔ initial ≠ none := by
  unfold readInitial
  split
  · next hk => exact Returns.any.bind fun i _ => Returns.pure (by simp [hk])
  · next hk => exact Returns.pure (by simp [hk])

theorem returns_oneVariable (h : Built w e v p c dest) :
    Returns (readOneVariable w dest) (Built w e (v + 1) p c) := by
  refine Returns.any.bind fun enumID _ => Returns.any.bind fun kindint _ =>
    Returns.any.bind fun kind _ => Returns.any.bind fun _ _ =>
      (returns_initial kind).bind fun initial hinitial => Returns.pure ?_
  refine ⟨h.enums, by simp [h.vars], h.props, h.clauses, fun x hx => ?_⟩
  rcases List.mem_append.mp hx with hx | hx
  · exact h.restored x hx
  · obtain rfl := List.mem_singleton.mp hx
    exact ⟨hinitial, fun y hy => absurd hy List.not_mem_nil, fun y hy => absurd hy List.not_mem_nil⟩

theorem returns_oneVarval (b : Bool) (h : Built w e v p c dest) :
    Returns (readOneVarval w b dest) (Built w e v (p + 1) c) := by
  refine Returns.any.bind fun var _ => Returns.any.bind fun value _ =>
    Returns.any.bind fun _ _ => Returns.pure ?_
  exact ⟨h.enums, h.vars, by simp [h.props], h.clauses, h.restored⟩

theorem returns_oneVarvar (b : Bool) (h : Built w e v p c dest) :
    Returns (readOneVarvar w b dest) (Built w e v (p + 1) c) := by
  refine Returns.any.bind fun var _ => Returns.any.bind fun other _ =>
    Returns.any.bind fun _ _ => Returns.any.bind fun _ _ => Returns.pure ?_
  exact ⟨h.enums, h.vars, by simp [h.props], h.clauses, h.restored⟩

theorem returns_oneClause (h : Built w e v p c dest) :
    Returns (readOneClause w dest) (Built w e v p (c + 1)) := by
  refine Returns.any.bind fun pack _ => Returns.any.bind fun props _ => Returns.pure ?_
  exact ⟨h.enums, h.vars, h.props, by simp [h.clauses], h.restored⟩

theorem returns_rankOrFrom (b : Bool) : Returns (readRankOrFrom w b) fun p =>
    (b = true → p.2 ≠ none) ∧ (b = false → p.2 = none ∧ p.1 < 256) := by
  cases b with
  | true => exact Returns.any.bind fun i _ => Returns.pure (by simp)
  | false => exact returns_get1.bind fun i hi => Returns.pure (by simpa using hi)

theorem returns_oneTransition (b : Bool) (m : ℕ) (hwx : w.wx ≠ 0) (h : Built w e v p c dest) :
    Returns (readOneTransition w b m dest) (Built w e v p c) := by
  refine (returns_rankOrFrom b).bind fun rf hrf => Returns.any.bind fun toMode _ =>
    returns_get.bind fun ncls hncls => ?_
  have hcls : Returns ((List.range ncls).foldlM (fun cls _ => do
      let cid ← get w.wc
      let _ ← dest.getClause cid
      return cls ++ [some cid]) []) fun cls : List (Option ℕ) => w.wxc = 0 → cls = [] := by
    by_cases hz : w.wxc = 0
    · rw [hncls hz]
      exact Returns.pure fun _ => rfl
    · exact fun _ _ _ _ hz' => absurd hz' hz
  refine hcls.bind fun cls hempty => Returns.lift fun g hg => ?_
  exact h.addTransition ⟨hrf.1, hrf.2, hempty, hwx⟩ hg

theorem returns_transitionsOf (m : ℕ) (h : Built w e v p c dest) :
    Returns (readTransitionsOf w m dest) (Built w e v p c) := by
  refine Returns.any.bind fun x _ => ?_
  split
  · exact Returns.pure h
  · refine returns_get.bind fun nnominal hnominal => returns_get.bind fun nfailure hfailure => ?_
    refine (Returns.loop (fun _ => Built w e v p c) (fun k hk dest hdest => ?_) h).bind
      fun dest hdest => Returns.loop (fun _ => Built w e v p c) (fun k hk dest hdest => ?_) hdest
    · exact returns_oneTransition true m (fun hz => by simp [hnominal hz] at hk) hdest
    · exact returns_oneTransition false m (fun hz => by simp [hfailure hz] at hk) hdest

theorem returns_sections (w : Widths) (n : Counts) : Returns (readSections w n)
    (Built w n.nenums n.nvars (n.nposprops + n.nnegprops + n.nsameprops + n.ndiffprops)
      n.nclauses) := by
  have hempty : Built w 0 0 0 0 {} := ⟨rfl, rfl, rfl, rfl, fun x hx => absurd hx List.not_mem_nil⟩
  refine (Returns.loop (fun k => Built w k 0 0 0) (fun k _ dest h => returns_oneEnum h)
    hempty).bind fun dest h => ?_
  refine (Returns.loop (fun k => Built w _ k 0 0) (fun k _ dest h => returns_oneVariable h)
    h).bind fun dest h => ?_
  refine (Returns.loop (fun k => Built w _ _ k 0) (fun k _ dest h => returns_oneVarval true h)
    h).bind fun dest h => ?_
  refine (Returns.loop (fun k => Built w _ _ (_ + k) 0)
    (fun k _ dest h => returns_oneVarval false h) h).bind fun dest h => ?_
  refine (Returns.loop (fun k => Built w _ _ (_ + k) 0)
    (fun k _ dest h => returns_oneVarvar true h) h).bind fun dest h => ?_
  refine (Returns.loop (fun k => Built w _ _ (_ + k) 0)
    (fun k _ dest h => returns_oneVarvar false h) h).bind fun dest h => ?_
  refine (Returns.loop (fun k => Built w _ _ _ k) (fun k _ dest h => returns_oneClause h)
    h).bind fun dest h => ?_
  exact Returns.loop (fun _ => Built w _ _ _ _) (fun m _ dest h => returns_transitionsOf m h) h

/-- Nothing is counted in a field without bytes. -/
structure Counted (w : Widths) (n : Counts) : Prop where
  enums : w.we = 0 → n.nenums = 0
  vars : w.wv = 0 → n.nvars = 0
  props : w.wp = 0 → n.nposprops + n.nnegprops + n.nsameprops + n.ndiffprops = 0
  clauses : w.wc = 0 → n.nclauses = 0

theorem returns_counts (w : Widths) : Returns (readCounts w) (Counted w) := by
  refine returns_get.bind fun nenums he => returns_get.bind fun nvars hv =>
    returns_get.bind fun npos hpos => returns_get.bind fun nneg hneg =>
      returns_get.bind fun nsame hsame => returns_get.bind fun ndiff hdiff =>
        returns_get.bind fun nclauses hc => Returns.pure ⟨he, hv, fun hz => ?_, hc⟩
  simp [hpos hz, hneg hz, hsame hz, hdiff hz]

end

theorem read_all {bs : List ℕ} {g : L2File} (h : read bs = .ok (some (g, bs.length))) :
    bs.length < 2 ^ 31 ∧ ∃ w n rest rest', readHeader bs = .ok (some (w, n), rest) ∧
      readSections w n rest = .ok (g, rest') := by
  unfold read at h
  simp only at h
  split at h
  · cases h
  · next hsize =>
    cases hh : readHeader (bs.take (bs.length % 2 ^ 32)) with
    | error e =>
      rw [hh] at h
      cases h
    | ok p =>
      obtain ⟨header, rest⟩ := p
      rw [hh] at h
      cases header with
      | none => cases h
      | some wn =>
        obtain ⟨w, n⟩ := wn
        cases hs : readSections w n rest with
        | error e => simp [hs, bind, Except.bind] at h
        | ok q =>
          obtain ⟨dest, rest'⟩ := q
          simp only [hs, bind, Except.bind, pure, Except.pure, Except.ok.injEq, Option.some.injEq,
            Prod.mk.injEq] at h
          obtain ⟨rfl, hlen⟩ := h
          have hmod : bs.length % 2 ^ 32 = bs.length := by omega
          rw [hmod, List.take_length] at hh
          exact ⟨by omega, w, n, rest, rest', hh, hs⟩

theorem read_eq {bs rest : List ℕ} {w : Widths} {n : Counts} {g : L2File} (hne : bs ≠ [])
    (hlt : bs.length < 2 ^ 31) (hh : readHeader bs = .ok (some (w, n), rest))
    (hs : readSections w n rest = .ok (g, [])) : read bs = .ok (some (g, bs.length)) := by
  have hpos : 0 < bs.length := List.length_pos_iff.mpr hne
  have hmod : bs.length % 2 ^ 32 = bs.length := Nat.mod_eq_of_lt (by omega)
  unfold read
  simp only [hmod]
  rw [if_neg (by omega), List.take_length, hh]
  simp [bind, Except.bind, hs, pure, Except.pure]

structure SameVar (x y : L2rVariable) : Prop where
  type : y.type = x.type
  kind : y.kind = x.kind
  initial : y.initial = x.initial
  nominal : y.mode.nominal.Perm x.mode.nominal
  failure : y.mode.failure = x.mode.failure

/-- Equal but for the order of the nominal transitions. -/
structure Same (f g : L2File) : Prop where
  enums : g.enums = f.enums
  vars : List.Forall₂ SameVar f.vars g.vars
  props : g.props = f.props
  clauses : g.clauses = f.clauses

/-- The model is written, and all that is written is read as the same model. -/
def RoundTrips (f : L2File) : Prop :=
  ∃ bs g, ToBin.write f = .ok bs ∧ read bs = .ok (some (g, bs.length)) ∧ Same f g

def most (ns : List ℕ) : ℕ := ns.foldr max 0

theorem le_most {n : ℕ} {ns : List ℕ} (h : n ∈ ns) : n ≤ most ns := by
  induction ns with
  | nil => cases h
  | cons m ns ih =>
    rcases List.mem_cons.mp h with rfl | h
    · exact le_max_left n (most ns)
    · exact (ih h).trans (le_max_right m (most ns))

theorem most_mem {ns : List ℕ} (h : 0 < most ns) : most ns ∈ ns := by
  induction ns with
  | nil => cases h
  | cons m ns ih =>
    rcases le_total m (most ns) with hle | hle
    · have heq : most (m :: ns) = most ns := max_eq_right hle
      rw [heq] at h ⊢
      exact List.mem_cons_of_mem m (ih h)
    · have heq : most (m :: ns) = m := max_eq_left hle
      rw [heq]
      exact List.mem_cons_self

theorem largest_eq_most (ns : List ℕ) : largest ns = most ns := by
  have hfold (k : ℕ) : ns.foldl (fun largest n => if largest < n then n else largest) k =
      max k (most ns) := by
    induction ns generalizing k with
    | nil => exact (max_eq_left (Nat.zero_le k)).symm
    | cons n ns ih =>
      have hmax : (if k < n then n else k) = max k n := by
        split <;> omega
      rw [List.foldl_cons, hmax, ih, max_assoc]
      rfl
  exact (hfold 0).trans (max_eq_right (Nat.zero_le _))

/-- A value whose field has one to three bytes. -/
def Field (n : ℕ) : Prop := 0 < n ∧ n < 2 ^ 24

instance (n : ℕ) : Decidable (Field n) := inferInstanceAs (Decidable (_ ∧ _))

theorem field_iff {n : ℕ} : Field n ↔ 1 ≤ width n ∧ width n ≤ 3 := by
  have hpos : 1 ≤ width n ↔ 0 < n := by
    rw [Nat.one_le_iff_ne_zero, ne_eq, width_eq_zero, Nat.pos_iff_ne_zero]
  rw [hpos, width_le_iff]
  exact Iff.rfl

def transitionCounts (f : L2File) : List ℕ :=
  (modes f).flatMap fun m => [m.nominal.length, m.failure.length]

def clauseCounts (f : L2File) : List ℕ :=
  (modes f).flatMap fun m => (m.nominal ++ m.failure).map (·.clauses.length)

/-- The widths of a model with at most 127 propositions in a clause. -/
def fieldWidths (f : L2File) : Widths where
  we := width (most f.enums)
  wv := width f.vars.length
  wp := width f.props.length
  wc := width f.clauses.length
  wch := 1
  wx := width (most (transitionCounts f))
  wxc := width (most (clauseCounts f))

def encodedSize (f : L2File) (w : Widths) : ℕ :=
  12 + w.we + w.wv + 4 * w.wp + w.wc + w.we * f.enums.length +
    (f.vars.map fun x => w.we + 1 + if x.kind = .mode then w.we else 0).sum +
    (f.props.map fun p => w.wv + if p.isEquality then w.wv else w.we).sum +
    (f.clauses.map fun c => w.wch + w.wp * c.props.length).sum +
    ((modes f).map fun m => 2 * w.wx + ((m.nominal ++ m.failure).map fun x =>
      (if x.isNominal then w.we else 1) + w.we + w.wxc + w.wc * x.clauses.length).sum).sum

/-- What the format and its reader have room for. -/
structure Encodable (f : L2File) : Prop where
  members : Field (most f.enums)
  enums : f.enums.length < 256 ^ width (most f.enums)
  vars : Field f.vars.length
  props : Field f.props.length
  clauses : Field f.clauses.length
  clauseProps : 0 < most (f.clauses.map (·.props.length)) ∧
    most (f.clauses.map (·.props.length)) ≤ 127
  transitions : Field (most (transitionCounts f))
  transitionClauses : Field (most (clauseCounts f))
  initial : ∀ x ∈ f.vars, x.kind = .mode ↔ x.initial ≠ none
  nominal : ∀ x ∈ f.vars, ∀ y ∈ x.mode.nominal, y.fromMode ≠ none
  failure : ∀ x ∈ f.vars, ∀ y ∈ x.mode.failure, y.fromMode = none ∧ y.rank < 256
  size : encodedSize f (fieldWidths f) < 2 ^ 31

theorem length_flatMap_bytes (w : ℕ) (ns : List ℕ) : (ns.flatMap (bytes w)).length = w * ns.length := by
  induction ns with
  | nil => simp
  | cons n ns ih => simp [ih, Nat.mul_succ, Nat.add_comm]

theorem length_transitionBytes (w : Widths) (x : L2rTransition) : (transitionBytes w x).length =
    (if x.isNominal then w.we else 1) + w.we + w.wxc + w.wc * x.clauses.length := by
  have hclauses : (x.clauses.flatMap fun c => bytes w.wc (c.getD 0)).length =
      w.wc * x.clauses.length := by
    have hlen := length_flatMap_bytes w.wc (x.clauses.map fun c => c.getD 0)
    rwa [List.flatMap_map, List.length_map] at hlen
  unfold transitionBytes
  simp only [List.length_append, length_bytes, hclauses]
  split <;> simp

theorem length_variableBytes (w : Widths) (x : L2rVariable) : (variableBytes w x).length =
    w.we + 1 + if x.kind = .mode then w.we else 0 := by
  simp only [variableBytes, List.length_append, length_bytes, List.length_singleton]
  split <;> simp

theorem length_propBytes (w : Widths) (p : L2rProposition) : (propBytes w p).length =
    w.wv + if p.isEquality then w.wv else w.we := by
  cases p <;> simp [propBytes, L2rProposition.isEquality]

theorem length_clauseBytes (w : Widths) (c : L2rClause) :
    (clauseBytes w c).length = w.wch + w.wp * c.props.length := by
  rw [clauseBytes, List.length_append, length_bytes, length_flatMap_bytes]

theorem length_modeBytes (w : Widths) (m : L2rMode) : (modeBytes w m).length =
    2 * w.wx + ((m.nominal ++ m.failure).map fun x =>
      (if x.isNominal then w.we else 1) + w.we + w.wxc + w.wc * x.clauses.length).sum := by
  simp only [modeBytes, List.length_append, length_bytes, List.length_flatMap,
    length_transitionBytes, List.map_append, List.sum_append]
  omega

theorem length_fileBytes (f : L2File) (w : Widths) (n : PropCounts) :
    (fileBytes f w n).length = encodedSize f w := by
  have hcookie : cookieBytes.length = 10 := rfl
  have hweight : (weightBytes w).length = 2 := rfl
  rw [fileBytes_eq]
  simp only [sectionBytes, countBytes, List.length_append, hcookie, hweight, length_bytes,
    length_flatMap_bytes]
  simp only [List.length_flatMap, length_variableBytes, length_propBytes, length_clauseBytes,
    length_modeBytes, encodedSize]
  omega

section
variable {f : L2File} {pos neg : List L2rPropVarValue} {same diff : List L2rPropVarVar}

theorem nmembers_le_most (f : L2File) (v : ℕ) : f.nmembers v ≤ most f.enums := by
  unfold L2File.nmembers
  cases he : (f.type v).bind (f.enums[·]?) with
  | none => exact Nat.zero_le _
  | some k =>
    obtain ⟨e, -, hk⟩ := Option.bind_eq_some_iff.mp he
    exact le_most (List.mem_of_getElem? hk)

theorem widths_eq (h : 0 < most (f.clauses.map (·.props.length)) ∧
    most (f.clauses.map (·.props.length)) ≤ 127) : widths f = fieldWidths f := by
  have hwch : width (most (f.clauses.map (·.props.length)) * 2 % 2 ^ 32) = 1 := by
    have hlt : most (f.clauses.map (·.props.length)) * 2 % 2 ^ 32 < 256 ^ 1 := by omega
    have hpos : most (f.clauses.map (·.props.length)) * 2 % 2 ^ 32 ≠ 0 := by omega
    have hle := width_le_iff.mpr hlt
    have hne : width (most (f.clauses.map (·.props.length)) * 2 % 2 ^ 32) ≠ 0 :=
      fun hz => hpos (width_eq_zero.mp hz)
    omega
  simp only [widths, fieldWidths, widthOfInt_eq, largest_eq_most, hwch, transitionCounts,
    clauseCounts]

namespace Encodable

theorem widths_le (h : Encodable f) :
    ∀ v ∈ [(fieldWidths f).we, (fieldWidths f).wv, (fieldWidths f).wp, (fieldWidths f).wc,
      (fieldWidths f).wch, (fieldWidths f).wx, (fieldWidths f).wxc], 1 ≤ v ∧ v ≤ 3 := by
  simp only [List.forall_mem_cons, List.not_mem_nil, false_imp_iff, implies_true, and_true]
  exact ⟨field_iff.mp h.members, field_iff.mp h.vars, field_iff.mp h.props, field_iff.mp h.clauses,
    ⟨le_rfl, (by decide : 1 ≤ 3)⟩, field_iff.mp h.transitions, field_iff.mp h.transitionClauses⟩

theorem decoded_eq (h : Encodable f) : decoded (fieldWidths f) = fieldWidths f := by
  have hw := h.widths_le
  simp only [List.forall_mem_cons, List.not_mem_nil, false_imp_iff, implies_true, and_true] at hw
  rw [decoded, Widths.mk.injEq]
  omega

theorem narrow (h : Encodable f) : Narrow (fieldWidths f) := by
  have hw := h.widths_le
  simp only [List.forall_mem_cons, List.not_mem_nil, false_imp_iff, implies_true, and_true] at hw
  constructor <;> omega

theorem storable (h : Encodable f) : Storable f := by
  refine ⟨h.initial, h.nominal, h.failure, fun c hc => ?_⟩
  have hle := le_most (List.mem_map_of_mem (f := fun c => c.props.length) hc)
  have hmost := h.clauseProps.2
  omega

theorem headerFits (h : Encodable f) (hs : Sorted f pos neg same diff) :
    HeaderFits f (fieldWidths f) (counts pos neg same diff) := by
  have hlen : pos.length + neg.length + (same.length + diff.length) = f.props.length := by
    rw [hs.props]
    simp [Nat.add_assoc]
  have hlt : f.props.length < 256 ^ (fieldWidths f).wp := lt_pow_width _
  refine ⟨fun v hv => ⟨(h.widths_le v hv).1, (h.widths_le v hv).2.trans (by decide)⟩, h.enums,
    lt_pow_width _, ?_, lt_pow_width _⟩
  simp only [List.forall_mem_cons, List.not_mem_nil, false_imp_iff, implies_true, and_true,
    counts]
  omega

theorem value_lt {v i : ℕ} (hi : i < f.nmembers v) : i < 256 ^ (fieldWidths f).we :=
  (hi.trans_le (nmembers_le_most f v)).trans (lt_pow_width _)

theorem modeFits (hf : f.WellFormed) {m : ℕ} {x : L2rVariable} (hx : f.vars[m]? = some x)
    (hk : x.kind = .mode) (hfrom : ∀ y ∈ x.mode.nominal, y.fromMode ≠ none) :
    ModeFits (fieldWidths f) x.mode := by
  have hmem : x.mode ∈ modes f :=
    List.mem_map.mpr ⟨x, List.mem_filter.mpr ⟨List.mem_of_getElem? hx, by simp [hk]⟩, rfl⟩
  have hcount {n : ℕ} (hn : n ∈ [x.mode.nominal.length, x.mode.failure.length]) :
      n < 256 ^ (fieldWidths f).wx :=
    (le_most (List.mem_flatMap.mpr ⟨_, hmem, hn⟩)).trans_lt (lt_pow_width _)
  refine ⟨hcount (by simp), hcount (by simp), fun y hy => ?_⟩
  have hclauses : y.clauses.length < 256 ^ (fieldWidths f).wxc :=
    (le_most (List.mem_flatMap.mpr ⟨_, hmem, List.mem_map.mpr ⟨y, hy, rfl⟩⟩)).trans_lt
      (lt_pow_width _)
  have htyped : f.TypedTransition m y ∧
      (y.isNominal = true → unsigned y.fromMode < 256 ^ (fieldWidths f).we) := by
    rcases List.mem_append.mp hy with hy | hy
    · obtain ⟨-, -, -, htyped⟩ := hf.nominal m x hx y hy
      refine ⟨htyped, fun _ => ?_⟩
      obtain ⟨i, hi⟩ := Option.ne_none_iff_exists'.mp (hfrom y hy)
      rw [hi]
      exact value_lt (htyped.from_lt i hi)
    · obtain ⟨-, hnominal, htyped⟩ := hf.failure m x hx y hy
      exact ⟨htyped, fun hn => by rw [hnominal] at hn; cases hn⟩
  refine ⟨htyped.2, value_lt htyped.1.to_lt, hclauses, fun c hc => ?_⟩
  obtain ⟨i, hi, rfl⟩ := htyped.1.clauses c hc
  exact ⟨i, rfl, hi.trans (lt_pow_width _)⟩

theorem fileFits (h : Encodable f) (hf : f.WellFormed) (hs : Sorted f pos neg same diff) :
    FileFits f (fieldWidths f) (counts pos neg same diff) := by
  refine ⟨h.headerFits hs, fun k hk => (le_most hk).trans_lt (lt_pow_width _), fun x hx => ?_,
    fun p hp => ?_, fun c hc => ?_, fun m hm => ?_⟩
  · refine ⟨(hf.types x hx).trans h.enums, fun hk => ?_⟩
    obtain ⟨i, hi⟩ := Option.ne_none_iff_exists'.mp ((h.initial x hx).mp hk)
    obtain ⟨v, hv, rfl⟩ := List.mem_iff_getElem.mp hx
    rw [hi]
    exact value_lt (hf.initial v _ i (List.getElem?_eq_getElem hv) hi)
  · have htyped := hf.props p hp
    cases p with
    | varValue p => exact ⟨htyped.1.trans (lt_pow_width _), value_lt htyped.2⟩
    | varVar p => exact ⟨htyped.1.trans (lt_pow_width _), htyped.2.1.trans (lt_pow_width _)⟩
  · have hle := le_most (List.mem_map_of_mem (f := fun c => c.props.length) hc)
    have hmost := h.clauseProps.2
    refine ⟨?_, fun i hi => (hf.clauses c hc i hi).trans (lt_pow_width _)⟩
    have hword : clauseWord c < 256 ^ 1 := by
      unfold clauseWord
      split <;> omega
    exact hword
  · obtain ⟨x, hx, rfl⟩ := List.mem_map.mp hm
    obtain ⟨hx, hk⟩ := List.mem_filter.mp hx
    obtain ⟨v, hv, rfl⟩ := List.mem_iff_getElem.mp hx
    exact modeFits hf (List.getElem?_eq_getElem hv) (of_decide_eq_true hk) (h.nominal _ hx)

end Encodable

theorem sameVar_modeRead (x : L2rVariable) : SameVar x (modeRead x) :=
  ⟨rfl, rfl, rfl, List.reverse_perm _, rfl⟩

theorem Encodable.roundTrips (h : Encodable f) (hf : f.WellFormed)
    (hs : Sorted f pos neg same diff) (hle : ∀ p ∈ same ++ diff, p.var ≤ p.otherVar) :
    RoundTrips f := by
  have hfit := h.fileFits hf hs
  have hwrite := (write_writes hs).returns (widths_eq h.clauseProps ▸ hfit)
  rw [widths_eq h.clauseProps] at hwrite
  have hlen := length_fileBytes f (fieldWidths f) (counts pos neg same diff)
  have hheader : readHeader (fileBytes f (fieldWidths f) (counts pos neg same diff)) =
      .ok (some (fieldWidths f, countsOf f (counts pos neg same diff)),
        sectionBytes f (fieldWidths f)) := by
    have hweights := reads_weights hfit.header.widths rfl
    rw [h.decoded_eq] at hweights
    rw [fileBytes_eq, readHeader_cookie, hweights.run_bind,
      (reads_counts h.narrow hfit.header).run_bind]
    rfl
  have hsections := reads_sections h.narrow hf h.storable hs hle hfit []
  rw [List.append_nil] at hsections
  have hne : fileBytes f (fieldWidths f) (counts pos neg same diff) ≠ [] := by
    rw [fileBytes_eq]
    exact List.cons_ne_nil _ _
  refine ⟨_, _, hwrite, read_eq hne (hlen ▸ h.size) hheader hsections, rfl, ?_, rfl, rfl⟩
  exact List.forall₂_map_right_iff.mpr (List.forall₂_same.mpr fun x _ => sameVar_modeRead x)

theorem field_of {v : ℕ} (h : TwoBits (width v)) (hz : width v % 4 = 0 → v = 0) : Field v := by
  refine field_iff.mpr ⟨h.1, ?_⟩
  by_contra hgt
  have hfour : width v = 4 := by
    have hle := h.2
    omega
  have hzero : v = 0 := hz (by omega)
  rw [width_eq_zero.mpr hzero] at hfour
  cases hfour

theorem Same.varRestored {g : L2File} {w : Widths} (h : Same f g)
    (hg : ∀ y ∈ g.vars, VarRestored w y) : ∀ x ∈ f.vars, VarRestored w x := by
  have hall {xs ys : List L2rVariable} (hvars : List.Forall₂ SameVar xs ys)
      (hys : ∀ y ∈ ys, VarRestored w y) : ∀ x ∈ xs, VarRestored w x := by
    induction hvars with
    | nil => exact fun x hx => absurd hx List.not_mem_nil
    | cons hxy _ ih =>
      obtain ⟨hy, hys⟩ := List.forall_mem_cons.mp hys
      refine List.forall_mem_cons.mpr ⟨⟨?_, fun z hz => ?_, fun z hz => ?_⟩, ih hys⟩
      · rw [← hxy.kind, ← hxy.initial]
        exact hy.initial
      · exact hy.nominal z (hxy.nominal.mem_iff.mpr hz)
      · exact hy.failure z (hxy.failure ▸ hz)
  exact hall h.vars hg

/-- Where the transitions of a file are like this, so are all those that are counted. -/
theorem restored_of_mem {w : Widths} (h : ∀ x ∈ f.vars, VarRestored w x) {m : L2rMode}
    (hm : m ∈ modes f) {y : L2rTransition} (hy : y ∈ m.nominal ++ m.failure) :
    ∃ b, Restored w b y := by
  obtain ⟨x, hx, rfl⟩ := List.mem_map.mp hm
  have hvar := h x (List.mem_filter.mp hx).1
  rcases List.mem_append.mp hy with hy | hy
  · exact ⟨true, hvar.nominal y hy⟩
  · exact ⟨false, hvar.failure y hy⟩

theorem most_transitionCounts {w : Widths} (h : ∀ x ∈ f.vars, VarRestored w x) (hz : w.wx = 0) :
    most (transitionCounts f) = 0 := by
  by_contra hne
  obtain ⟨m, hm, hlen⟩ := List.mem_flatMap.mp (most_mem (Nat.pos_of_ne_zero hne))
  have hpos : 0 < (m.nominal ++ m.failure).length := by
    have hcount : most (transitionCounts f) ∈ [m.nominal.length, m.failure.length] := hlen
    simp only [List.mem_cons, List.not_mem_nil, or_false] at hcount
    rw [List.length_append]
    omega
  obtain ⟨y, hy⟩ := List.exists_mem_of_length_pos hpos
  obtain ⟨b, hrestored⟩ := restored_of_mem h hm hy
  exact hrestored.counted hz

theorem most_clauseCounts {w : Widths} (h : ∀ x ∈ f.vars, VarRestored w x) (hz : w.wxc = 0) :
    most (clauseCounts f) = 0 := by
  by_contra hne
  obtain ⟨m, hm, hlen⟩ := List.mem_flatMap.mp (most_mem (Nat.pos_of_ne_zero hne))
  obtain ⟨y, hy, hlen⟩ := List.mem_map.mp hlen
  obtain ⟨b, hrestored⟩ := restored_of_mem h hm hy
  rw [hrestored.clauses hz] at hlen
  exact hne hlen.symm

theorem clauseProps_le {w : Widths} (hwp : 1 ≤ w.wp) :
    most (f.clauses.map (·.props.length)) ≤ encodedSize f w := by
  by_cases hpos : 0 < most (f.clauses.map (·.props.length))
  · obtain ⟨c, hc, hlen⟩ := List.mem_map.mp (most_mem hpos)
    have hsum : w.wch + w.wp * c.props.length ≤
        (f.clauses.map fun c => w.wch + w.wp * c.props.length).sum :=
      List.le_sum_of_mem (List.mem_map.mpr ⟨c, hc, rfl⟩)
    have hmul : c.props.length ≤ w.wp * c.props.length := Nat.le_mul_of_pos_left _ hwp
    unfold encodedSize
    omega
  · omega

theorem encodable_of_roundTrips (hs : Sorted f pos neg same diff) (h : RoundTrips f) : Encodable f := by
  obtain ⟨bs, g, hwrite, hread, hsame⟩ := h
  obtain ⟨hfit, rfl⟩ := (write_writes hs bs).mp hwrite
  obtain ⟨hlt, w, n, rest, rest', hheader, hsections⟩ := read_all hread
  rw [length_fileBytes] at hlt
  rw [fileBytes_eq, readHeader_cookie] at hheader
  have hwidths := hfit.header.widths
  have hch : (widths f).wch = 1 := by
    by_contra hch
    change (readWeights _ >>= _) = _ at hheader
    rw [readWeights_error hwidths hch] at hheader
    cases hheader
  rw [(reads_weights hwidths hch).run_bind] at hheader
  have hcounts : Returns (readCounts (decoded (widths f)) >>= fun n =>
      pure (some (decoded (widths f), n))) fun r =>
        ∃ n, r = some (decoded (widths f), n) ∧ Counted (decoded (widths f)) n :=
    (returns_counts _).bind fun n hn => Returns.pure ⟨n, rfl, hn⟩
  obtain ⟨n', heq, hcounted⟩ := hcounts _ _ _ hheader
  obtain ⟨rfl, rfl⟩ := Prod.mk.inj (Option.some.inj heq)
  have hbuilt := returns_sections _ _ _ _ _ hsections
  have hrestored := hsame.varRestored hbuilt.restored
  have hmost : most (f.clauses.map (·.props.length)) < 2 ^ 31 :=
    (clauseProps_le (hwidths _ (by simp)).1).trans_lt hlt
  have hprops : 0 < most (f.clauses.map (·.props.length)) ∧
      most (f.clauses.map (·.props.length)) ≤ 127 := by
    have hwidth : width (most (f.clauses.map (·.props.length)) * 2 % 2 ^ 32) = 1 := by
      rw [← widthOfInt_eq, ← largest_eq_most]
      exact hch
    have hle := width_le_iff.mp hwidth.le
    have hne : most (f.clauses.map (·.props.length)) * 2 % 2 ^ 32 ≠ 0 := by
      intro hz
      rw [hz] at hwidth
      cases hwidth
    omega
  have hw := widths_eq hprops
  rw [hw] at hlt hwidths hcounted hrestored hfit
  simp only [List.forall_mem_cons, List.not_mem_nil, false_imp_iff, implies_true, and_true]
    at hwidths
  obtain ⟨te, tv, tp, tc, -, tx, txc⟩ := hwidths
  refine ⟨field_of te fun hz => ?_, hfit.header.enums, field_of tv fun hz => ?_,
    field_of tp fun hz => ?_, field_of tc fun hz => ?_, hprops,
    field_of tx (most_transitionCounts hrestored), field_of txc (most_clauseCounts hrestored),
    fun x hx => (hrestored x hx).initial, fun x hx y hy => ((hrestored x hx).nominal y hy).nominal rfl,
    fun x hx y hy => ((hrestored x hx).failure y hy).failure rfl, hlt⟩
  · have hlen := hbuilt.enums.trans (hcounted.enums hz)
    rw [hsame.enums] at hlen
    rw [List.length_eq_zero_iff.mp hlen]
    rfl
  · exact hsame.vars.length_eq.trans (hbuilt.vars.trans (hcounted.vars hz))
  · exact (congrArg List.length hsame.props).symm.trans (hbuilt.props.trans (hcounted.props hz))
  · exact (congrArg List.length hsame.clauses).symm.trans (hbuilt.clauses.trans (hcounted.clauses hz))

/-- The pairs of variables are ordered by the constructor of the proposition. -/
theorem roundTrips_iff (hf : f.WellFormed) (hs : Sorted f pos neg same diff)
    (hle : ∀ p ∈ same ++ diff, p.var ≤ p.otherVar) : RoundTrips f ↔ Encodable f :=
  ⟨encodable_of_roundTrips hs, fun h => h.roundTrips hf hs hle⟩

end

/-- A mode of two values with one nominal transition and one failure. -/
def switch (initial : Option ℕ) : L2File where
  enums := [2]
  vars := [{
    type := 0
    kind := .mode
    initial := initial
    mode := ⟨[⟨0, some 0, 1, [some 0], true, 0⟩], [⟨0, none, 1, [], false, 3⟩]⟩ }]
  props := [.varValue ⟨0, true, 0⟩, .varValue ⟨0, false, 1⟩]
  clauses := [⟨[0, 1], false⟩]

theorem roundTrips_switch : RoundTrips (switch (some 0)) := by
  have hsorted : Sorted (switch (some 0)) [⟨0, true, 0⟩] [⟨0, false, 1⟩] [] [] :=
    ⟨rfl, by decide, by decide, by decide, by decide⟩
  refine (roundTrips_iff (by decide) hsorted (by decide)).mpr ?_
  constructor <;> decide

/-- `NO_INITIAL_VALUE` does not fit in the field of the values. -/
theorem roundTrips_uninitialized : ¬ RoundTrips (switch none) := by
  have hwrite : ToBin.write (switch none) = .error (.writer "value was too big for width 1") := by
    decide
  intro h
  obtain ⟨bs, g, hbs, -⟩ := h
  cases hwrite.symm.trans hbs

end Livingstone.FromMemory
