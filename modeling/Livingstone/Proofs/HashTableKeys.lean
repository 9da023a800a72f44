import Livingstone.Cover.ProtoSet
import Livingstone.Proofs.HashTableRuns

/-! The two levels of the hash table. The one with a list of keys for each bucket, of which the sets
of candidates are made, does what the one in memory does, with whatever hash each operation is given. -/

namespace Livingstone

open LinkedList (Allocator)
open MbaUtils (HashTableIterator Items MapOp Response)

inductive KeyOp (κ τ : Type) where
  | insert (key : κ) (value : τ)
  | find (key : κ)
  | eraseAll
  | elements

variable {κ τ : Type}

def KeyOp.toMapOp : KeyOp κ τ → MapOp κ τ
  | .insert key value => .insert key value
  | .find key => .find key
  | .eraseAll => .eraseAll
  | .elements => .sweep fun _ => false

def MbaUtils.Response.keys : Response κ τ → List κ
  | .inserted entry _ => [entry.1]
  | .found entry => (entry.map Prod.fst).toList
  | .visited entries => entries.map Prod.fst
  | _ => []

def hashValue (hash : κ → UInt32) (key : κ) : ℕ := (hash key).toNat

def stepKeys [DecidableEq κ] (hash : κ → UInt32) (u : HashTable κ) :
    KeyOp κ τ → List κ × HashTable κ
  | .insert key _ => ([key], u.insert (hashValue hash) key)
  | .find key => ((u.find (hashValue hash) key).toList, u)
  | .eraseAll => ([], .empty u.buckets.length u.nonempty)
  | .elements => (u.elements, u)

/-- `u` has the keys of the table in memory, bucket by bucket. -/
def Outlines (t : MbaUtils.HashTable κ τ) (u : HashTable κ) : Prop :=
  ∃ buckets : List (Items κ τ), t.Holds buckets ∧ u.buckets = buckets.map fun l => l.map (·.2.1)

variable {A : Allocator (κ × τ)} {t : MbaUtils.HashTable κ τ} {u : HashTable κ}
  {buckets : List (Items κ τ)} {before after : Items κ τ} {it : HashTableIterator}

theorem outlines_new {n : ℕ} (h : 0 < n) :
    Outlines (.new n h : MbaUtils.HashTable κ τ) (.empty n h) :=
  ⟨_, MbaUtils.HashTable.holds_new h, by simp [HashTable.empty]⟩

theorem elements_eq (hu : u.buckets = buckets.map fun l => l.map (·.2.1)) :
    u.elements = buckets.flatten.map (·.2.1) := by
  rw [HashTable.elements, hu, List.map_flatten]

theorem sweepLoop_visits [BEq κ] (visited : List (κ × τ)) (turns : ℕ) (h : t.Holds buckets)
    (hat : it.At buckets before after) (hturns : after.length < turns) :
    MbaUtils.HashTable.sweepLoop (fun _ => false) turns (visited, it, t) =
      .ok (visited ++ after.map Prod.snd, t) := by
  obtain ⟨turns, rfl⟩ : ∃ k, turns = k + 1 := ⟨turns - 1, by omega⟩
  induction after generalizing it before visited turns with
  | nil =>
    refine Loop.whileM_inr _ _ ?_
    dsimp only
    rw [if_pos ((hat.eq_end_iff h).mpr rfl), List.map_nil, List.append_nil]
    rfl
  | cons n after ih =>
    rw [List.length_cons] at hturns
    obtain ⟨turns, rfl⟩ : ∃ k, turns = k + 1 := ⟨turns - 1, by omega⟩
    have hend : ¬ it.eq t.end = true := fun heq => by simpa using (hat.eq_end_iff h).mp heq
    obtain ⟨it', hincrement, hat'⟩ := hat.increment h
    have hturn : MbaUtils.HashTable.sweepLoop (fun _ => false) (turns + 1 + 1) (visited, it, t) =
        MbaUtils.HashTable.sweepLoop (fun _ => false) (turns + 1) (visited ++ [n.2], it', t) := by
      refine Loop.whileM_inl _ _ ?_
      dsimp only
      rw [if_neg hend, hat.deref h]
      dsimp only [bind, Except.bind]
      rw [if_neg Bool.false_ne_true, hincrement]
      rfl
    rw [hturn, ih _ hat' turns (by omega)]
    simp

variable [DecidableEq κ]

theorem Outlines.lookup (h : t.Holds buckets)
    (hu : u.buckets = buckets.map fun l => l.map (·.2.1)) (hash : κ → UInt32) (key : κ) :
    ∃ front l back s, buckets = front ++ l :: back ∧ t.index hash key = front.length ∧
      u.index (hashValue hash) key = front.length ∧
      u.bucket (hashValue hash) key = l.map (·.2.1) ∧
      t.bucket front.length = .ok s ∧ s.Holds t.memory l ∧
      ((∃ before n after pos, t.findIn key s = .ok (some pos) ∧
        HashTableIterator.At buckets before (n :: after) ⟨front.length, pos⟩ ∧ n.2.1 = key ∧
          key ∈ l.map (·.2.1)) ∨
      t.findIn key s = .ok none ∧ key ∉ l.map (·.2.1)) := by
  obtain ⟨front, l, back, rfl, hindex⟩ := h.exists_bucket hash key
  obtain ⟨s, hbucket, hs⟩ := h.bucket
  have hindex' : u.index (hashValue hash) key = front.length := by
    rw [← hindex, h.index, HashTable.index, hu, List.length_map]
    rfl
  have hkeys : u.bucket (hashValue hash) key = l.map (·.2.1) := by
    have hget := HashTable.getElem?_index (hashValue hash) u key
    rw [hindex', hu] at hget
    simpa using hget.symm
  refine ⟨front, l, back, s, rfl, hindex, hindex', hkeys, hbucket, hs, ?_⟩
  rcases MbaUtils.HashTable.findIn_eq key hs with ⟨l', n, r', pos, hfound, rfl, hpos, hkey⟩ | ⟨hnone, hall⟩
  · refine Or.inl ⟨_, n, _, pos, hfound, ⟨front, l', n :: r', back, rfl, rfl, hpos, rfl, rfl,
      fun hnil => by cases hnil⟩, eq_of_beq hkey, ?_⟩
    rw [← eq_of_beq hkey]
    simp
  · refine Or.inr ⟨hnone, fun hmem => ?_⟩
    obtain ⟨n, hn, rfl⟩ := List.mem_map.mp hmem
    simpa using hall n hn

theorem Outlines.step_find (h : Outlines t u) (hash : κ → UInt32) (key : κ) :
    ∃ response, t.step A hash (.find key) = .ok (response, t) ∧
      response.keys = (u.find (hashValue hash) key).toList := by
  obtain ⟨buckets, h, hu⟩ := h
  obtain ⟨front, l, back, s, rfl, hindex, -, hkeys, hbucket, hs, hcases⟩ := lookup h hu hash key
  unfold MbaUtils.HashTable.step MbaUtils.HashTable.find HashTable.find
  rw [hkeys]
  simp only [hindex, hbucket, bind, Except.bind]
  rcases hcases with ⟨before, n, after, pos, hfound, hat, rfl, hmem⟩ | ⟨hnone, hmem⟩
  · have hend : ¬ HashTableIterator.eq ⟨front.length, pos⟩ t.end = true := fun heq => by
      simpa using (hat.eq_end_iff h).mp heq
    refine ⟨.found (some n.2), ?_, ?_⟩
    · simp only [hfound, pure, Except.pure, if_neg hend, hat.deref h]
    · cases hf : (l.map (·.2.1)).find? (· = n.2.1) with
      | none =>
        have hnot := List.find?_eq_none.mp hf n.2.1 hmem
        exact absurd (decide_eq_true rfl) hnot
      | some key =>
        have heq := List.find?_some hf
        rw [decide_eq_true_eq] at heq
        rw [heq]
        rfl
  · have hend : t.end.eq t.end = true := (h.end_at.eq_end_iff h).mpr rfl
    refine ⟨.found none, ?_, ?_⟩
    · simp only [hnone, pure, Except.pure, if_pos hend]
    · rw [List.find?_eq_none.mpr fun k hk => ?_]
      · rfl
      · simpa using fun heq : k = key => hmem (heq ▸ hk)

theorem Outlines.step_insert (h : Outlines t u) (hash : κ → UInt32) (key : κ) (value : τ) :
    ∃ response t', t.step A hash (.insert key value) = .ok (response, t') ∧
      response.keys = [key] ∧ Outlines t' (u.insert (hashValue hash) key) := by
  obtain ⟨buckets, h, hu⟩ := h
  obtain ⟨front, l, back, s, rfl, hindex, hindex', hkeys, hbucket, hs, hcases⟩ :=
    lookup h hu hash key
  unfold MbaUtils.HashTable.step MbaUtils.HashTable.insert HashTable.insert
  rw [hkeys]
  simp only [hindex, hbucket, bind, Except.bind]
  rcases hcases with ⟨before, n, after, pos, hfound, hat, rfl, hmem⟩ | ⟨hnone, hmem⟩
  · refine ⟨.inserted n.2 false, t, ?_, rfl, ?_⟩
    · simp only [hfound, pure, Except.pure, hat.deref h]
    · rw [if_pos hmem]
      exact ⟨_, h, hu⟩
  · have hholds := h.pushFront hs A (key, value)
    have hat : HashTableIterator.At (front ++ ((A.new t.memory, key, value) :: l) :: back)
        front.flatten ((A.new t.memory, key, value) :: l ++ back.flatten)
        ⟨front.length, (s.pushFront A (key, value) t.memory).2.begin⟩ :=
      ⟨front, [], _, back, rfl, rfl, (hs.pushFront A (key, value)).atBegin, by simp, rfl,
        fun hnil => by cases hnil⟩
    refine ⟨.inserted (key, value) true, t.setBucket front.length
      (s.pushFront A (key, value) t.memory).1 (s.pushFront A (key, value) t.memory).2, ?_, rfl, ?_⟩
    · simp only [hnone, pure, Except.pure, hat.deref hholds]
    · rw [if_neg hmem]
      refine ⟨_, hholds, ?_⟩
      dsimp only
      rw [hindex', hu, List.map_append, List.map_cons, List.map_append, List.map_cons]
      have hlength : (front.map fun l => l.map (·.2.1)).length = front.length := List.length_map _
      rw [← hlength, List.modify_eq_take_drop, List.take_left, List.drop_left]
      rfl

theorem Outlines.step_eraseAll (h : Outlines t u) (hash : κ → UInt32) :
    ∃ response t', t.step A hash .eraseAll = .ok (response, t') ∧ response.keys = [] ∧
      Outlines t' (.empty u.buckets.length u.nonempty) := by
  obtain ⟨buckets, h, hu⟩ := h
  obtain ⟨t', ht', hholds⟩ := h.eraseAll
  refine ⟨.done, t', ?_, rfl, _, hholds, by simp [HashTable.empty, hu]⟩
  unfold MbaUtils.HashTable.step
  rw [ht']
  rfl

theorem Outlines.step_elements (h : Outlines t u) (hash : κ → UInt32) :
    ∃ response, t.step A hash (.sweep fun _ => false) = .ok (response, t) ∧
      response.keys = u.elements := by
  obtain ⟨buckets, h, hu⟩ := h
  have hloop := sweepLoop_visits [] (t.size + 1) h h.begin_at (by rw [h.size]; omega)
  refine ⟨.visited (buckets.flatten.map Prod.snd), ?_, ?_⟩
  · unfold MbaUtils.HashTable.step MbaUtils.HashTable.sweep
    simp only [hloop, List.nil_append]
    rfl
  · rw [elements_eq hu, MbaUtils.Response.keys, List.map_map]
    rfl

/-- Each operation answers with the same keys and leaves the same keys behind. -/
theorem Outlines.step (h : Outlines t u) (A : Allocator (κ × τ)) (hash : κ → UInt32)
    (op : KeyOp κ τ) : ∃ response t', t.step A hash op.toMapOp = .ok (response, t') ∧
      response.keys = (stepKeys hash u op).1 ∧ Outlines t' (stepKeys hash u op).2 := by
  cases op with
  | insert key value => exact h.step_insert hash key value
  | find key =>
    obtain ⟨response, ht, hkeys⟩ := h.step_find (A := A) hash key
    exact ⟨response, t, ht, hkeys, h⟩
  | eraseAll => exact h.step_eraseAll hash
  | elements =>
    obtain ⟨response, ht, hkeys⟩ := h.step_elements (A := A) hash
    exact ⟨response, t, ht, hkeys, h⟩

/-- Operations one after the other, each with its hash. -/
def runKeys (u : HashTable κ) : List ((κ → UInt32) × KeyOp κ τ) → List (List κ) × HashTable κ
  | [] => ([], u)
  | op :: ops =>
    let (keys, u) := stepKeys op.1 u op.2
    let (answers, u) := runKeys u ops
    (keys :: answers, u)

def runEntries (A : Allocator (κ × τ)) (t : MbaUtils.HashTable κ τ) :
    List ((κ → UInt32) × KeyOp κ τ) →
      Except PointerError (List (List κ) × MbaUtils.HashTable κ τ)
  | [] => .ok ([], t)
  | op :: ops => do
    let (response, t) ← t.step A op.1 op.2.toMapOp
    let (answers, t) ← runEntries A t ops
    return (response.keys :: answers, t)

theorem Outlines.run (h : Outlines t u) (A : Allocator (κ × τ))
    (ops : List ((κ → UInt32) × KeyOp κ τ)) : ∃ t',
      runEntries A t ops = .ok ((runKeys u ops).1, t') ∧ Outlines t' (runKeys u ops).2 := by
  induction ops generalizing t u with
  | nil => exact ⟨t, rfl, h⟩
  | cons op ops ih =>
    obtain ⟨response, t₁, ht₁, hkeys, h₁⟩ := h.step A op.1 op.2
    obtain ⟨t₂, ht₂, h₂⟩ := ih h₁
    refine ⟨t₂, ?_, h₂⟩
    simp only [runEntries, runKeys, ht₁, bind, Except.bind, ht₂, ← hkeys]
    rfl

namespace ProtoSets

def hash32 (heap : ℕ → Option ProtoCandidate) (p : ℕ) : UInt32 :=
  ((heap p).map ProtoCandidate.hash).getD 0

theorem hashValue_hash32 (heap : ℕ → Option ProtoCandidate) :
    hashValue (hash32 heap) = hash heap := by
  funext p
  unfold hashValue hash32 hash
  cases heap p <;> rfl

/-- A set whose table is in memory: an address is added as it is to the list of keys. -/
theorem outlines_add {A : Allocator (ℕ × τ)} {t : MbaUtils.HashTable ℕ τ} {s : ProtoSets} {σ : SetId}
    (h : Outlines t (s.table σ)) (p : ℕ) (value : τ) :
    ∃ response, t.step A (hash32 s.heap) (.find p) = .ok (response, t) ∧
      (response.keys ≠ [] → response.keys = [(s.add σ p).1] ∧ Outlines t ((s.add σ p).2.table σ)) ∧
      (response.keys = [] → (s.add σ p).1 = p ∧ ∃ response' t',
        t.step A (hash32 s.heap) (.insert p value) = .ok (response', t') ∧
          Outlines t' ((s.add σ p).2.table σ)) := by
  obtain ⟨response, ht, hkeys⟩ := h.step_find (A := A) (hash32 s.heap) p
  obtain ⟨response', t', ht', -, h'⟩ := h.step_insert (A := A) (hash32 s.heap) p value
  rw [hashValue_hash32] at hkeys h'
  refine ⟨response, ht, ?_⟩
  unfold add
  cases hfind : (s.table σ).find (hash s.heap) p with
  | none =>
    rw [hfind] at hkeys
    refine ⟨fun hne => absurd hkeys hne, fun _ => ⟨rfl, response', t', ht', ?_⟩⟩
    simpa [insert] using h'
  | some found =>
    rw [hfind] at hkeys
    exact ⟨fun _ => ⟨hkeys, h⟩, fun hnil => by cases hkeys.symm.trans hnil⟩

end ProtoSets

end Livingstone
