import Livingstone.Utils.HashTable

/-! Runs of the hash table: it is a finite map, and a loop over it visits each entry once. -/

namespace Livingstone
namespace MbaUtils

open LinkedList (Allocator Memory addresses)
open FiniteMap (Distinct ofList)

variable {κ τ : Type}

inductive MapOp (κ τ : Type) where
  | insert (key : κ) (value : τ)
  | find (key : κ)
  | erase (key : κ)
  | eraseAll
  | size
  | sweep (erases : ℕ → Bool)

inductive Response (κ τ : Type) where
  | inserted (entry : κ × τ) (new : Bool)
  | found (entry : Option (κ × τ))
  | erased (count : ℕ)
  | done
  | size (n : ℕ)
  | visited (entries : List (κ × τ))

def kept {ε : Type} (erases : ℕ → Bool) (visited : List ε) : List ε :=
  (visited.zipIdx.filter fun e => !erases e.2).map Prod.fst

/-- The first insertion of a key wins, the size is the number of entries, and a loop visits each
entry once. -/
inductive MapStep [BEq κ] (F : FiniteMap κ τ) :
    MapOp κ τ → Response κ τ → FiniteMap κ τ → Prop
  | insertNew {key : κ} {value : τ} (h : F key = none) :
    MapStep F (.insert key value) (.inserted (key, value) true) (F.insert key value)
  | insertOld {key : κ} {value : τ} {entry : κ × τ} (h : F key = some entry) :
    MapStep F (.insert key value) (.inserted entry false) F
  | find {key : κ} : MapStep F (.find key) (.found (F key)) F
  | erase {key : κ} :
    MapStep F (.erase key) (.erased (if (F key).isSome then 1 else 0)) (F.erase key)
  | eraseAll : MapStep F .eraseAll .done FiniteMap.empty
  | size : MapStep F .size (.size F.size) F
  | sweep {erases : ℕ → Bool} {visited : List (κ × τ)} (hnodup : visited.Nodup)
    (hvisited : ∀ e, e ∈ visited ↔ e ∈ F.entries) :
    MapStep F (.sweep erases) (.visited visited) (ofList (kept erases visited))

inductive MapRun [BEq κ] : FiniteMap κ τ → List (MapOp κ τ) → List (Response κ τ) →
    FiniteMap κ τ → Prop
  | nil {F : FiniteMap κ τ} : MapRun F [] [] F
  | cons {F F' F'' : FiniteMap κ τ} {op : MapOp κ τ} {response : Response κ τ}
    {ops : List (MapOp κ τ)} {responses : List (Response κ τ)} (hstep : MapStep F op response F')
    (hrun : MapRun F' ops responses F'') : MapRun F (op :: ops) (response :: responses) F''

namespace HashTable

section

variable [BEq κ]

def step (A : Allocator (κ × τ)) (hash : κ → UInt32) (t : HashTable κ τ) :
    MapOp κ τ → Except PointerError (Response κ τ × HashTable κ τ)
  | .insert key value => do
    let (it, new, t) ← t.insert A hash key value
    return (.inserted (← it.deref t) new, t)
  | .find key => do
    let it ← t.find hash key
    if it.eq t.end then return (.found none, t)
    else return (.found (some (← it.deref t)), t)
  | .erase key => do
    let (count, t) ← t.erase hash key
    return (.erased count, t)
  | .eraseAll => do return (.done, ← t.eraseAll)
  | .size => .ok (.size t.size, t)
  | .sweep erases => do
    let (visited, t) ← t.sweep erases
    return (.visited visited, t)

def run (A : Allocator (κ × τ)) (hash : κ → UInt32) (t : HashTable κ τ) :
    List (MapOp κ τ) → Except PointerError (List (Response κ τ) × HashTable κ τ)
  | [] => .ok ([], t)
  | op :: ops => do
    let (response, t) ← t.step A hash op
    let (responses, t) ← t.run A hash ops
    return (response :: responses, t)

end

def contents (buckets : List (Items κ τ)) : List (κ × τ) := buckets.flatten.map Prod.snd

def Filed (hash : κ → UInt32) (buckets : List (Items κ τ)) : Prop :=
  ∀ i l, buckets[i]? = some l → ∀ n ∈ l, (hash n.2.1).toNat % buckets.length = i

structure Stores [BEq κ] (hash : κ → UInt32) (t : HashTable κ τ)
    (buckets : List (Items κ τ)) : Prop where
  holds : t.Holds buckets
  filed : Filed hash buckets
  distinct : Distinct (contents buckets)

variable {A : Allocator (κ × τ)} {hash : κ → UInt32} {t : HashTable κ τ} {s : Slist}
  {m : Memory (κ × τ)} {buckets front back : List (Items κ τ)} {before after l r : Items κ τ}
  {n : ℕ × κ × τ} {it : HashTableIterator} {pos : SlistIterator} {key : κ} {value : τ}

theorem Filed.replace (h : Filed hash (front ++ l :: back))
    (hr : ∀ n ∈ r, (hash n.2.1).toNat % (front ++ l :: back).length = front.length) :
    Filed hash (front ++ r :: back) := by
  intro i l' hi n hn
  have hlength : (front ++ r :: back).length = (front ++ l :: back).length := by simp
  have hset : front ++ r :: back = (front ++ l :: back).set front.length r := by simp
  rw [hlength]
  by_cases hne : front.length = i
  · subst hne
    have hr' : r = l' := by simpa using hi
    exact hr n (hr' ▸ hn)
  · rw [hset, List.getElem?_set_ne hne] at hi
    exact h i l' hi n hn

theorem Filed.bucket (h : Filed hash (front ++ l :: back)) (hn : n ∈ l) :
    (hash n.2.1).toNat % (front ++ l :: back).length = front.length :=
  h front.length l (by simp) n hn

theorem contents_of_at (hat : it.At buckets before after) :
    contents buckets = before.map Prod.snd ++ after.map Prod.snd := by
  rw [contents, hat.flatten, List.map_append]

theorem Holds.index (h : t.Holds buckets) (hash : κ → UInt32) (key : κ) :
    t.index hash key = (hash key).toNat % buckets.length := by
  rw [HashTable.index, h.tableSize]

theorem Holds.exists_bucket (h : t.Holds buckets) (hash : κ → UInt32) (key : κ) :
    ∃ front l back, buckets = front ++ l :: back ∧ t.index hash key = front.length := by
  have hlt : t.index hash key < buckets.length := by
    rw [h.index]
    exact Nat.mod_lt _ (h.tableSize ▸ t.nonempty)
  refine ⟨buckets.take (t.index hash key), buckets[t.index hash key],
    buckets.drop (t.index hash key + 1), ?_, ?_⟩
  · rw [List.getElem_cons_drop, List.take_append_drop]
  · rw [List.length_take, min_eq_left hlt.le]

variable [BEq κ]

theorem stores_new (hash : κ → UInt32) {k : ℕ} (h : 0 < k) :
    (new k h : HashTable κ τ).Stores hash (List.replicate k []) where
  holds := holds_new h
  filed i l hi n hn := by
    obtain rfl := List.eq_of_mem_replicate (List.mem_of_getElem? hi)
    cases hn
  distinct := by
    simp [contents, Distinct]

theorem Stores.eraseEntry (h : t.Stores hash buckets) (hat : it.At buckets before (n :: after)) :
    ∃ it' t' buckets', it.erase t = .ok (it', t') ∧ t'.Stores hash buckets' ∧
      it'.At buckets' before after := by
  obtain ⟨front, l, r, back, rfl, hindex, hpos, rfl, rfl⟩ := hat.split
  obtain ⟨index, pos⟩ := it
  obtain rfl : index = front.length := hindex
  obtain ⟨it', t', herase, hholds, hat'⟩ := HashTableIterator.erase_at h.holds hpos
  refine ⟨it', t', _, herase, ⟨hholds, h.filed.replace fun n' hn' => ?_, ?_⟩, hat'⟩
  · refine h.filed.bucket (List.mem_append.mpr ?_)
    rcases List.mem_append.mp hn' with hn' | hn'
    · exact Or.inl hn'
    · exact Or.inr (List.mem_cons_of_mem n hn')
  · have hdistinct := h.distinct
    rw [contents_of_at hat, List.map_cons] at hdistinct
    rw [contents_of_at hat']
    exact hdistinct.remove

theorem kept_concat {ε : Type} (erases : ℕ → Bool) (visited : List ε) (e : ε) :
    kept erases (visited ++ [e]) =
      kept erases visited ++ if erases visited.length then [] else [e] := by
  rw [kept, kept, List.zipIdx_append, List.filter_append, List.map_append]
  cases hlast : erases visited.length <;> simp [hlast]

/-- What is before the iterator was visited and kept, what is after it is still to be visited. -/
theorem sweepLoop_eq (erases : ℕ → Bool) (visited : List (κ × τ)) (turns : ℕ)
    (h : t.Stores hash buckets) (hat : it.At buckets before after)
    (hbefore : before.map Prod.snd = kept erases visited) (hturns : after.length < turns) :
    ∃ t' buckets', sweepLoop erases turns (visited, it, t) =
        .ok (visited ++ after.map Prod.snd, t') ∧ t'.Stores hash buckets' ∧
      contents buckets' = kept erases (visited ++ after.map Prod.snd) := by
  obtain ⟨turns, rfl⟩ : ∃ k, turns = k + 1 := ⟨turns - 1, by omega⟩
  induction after generalizing t it buckets before visited turns with
  | nil =>
    refine ⟨t, buckets, Loop.whileM_inr _ _ ?_, h, ?_⟩
    · dsimp only
      rw [if_pos ((hat.eq_end_iff h.holds).mpr rfl), List.map_nil, List.append_nil]
      rfl
    · rw [contents_of_at hat, hbefore, List.map_nil, List.append_nil, List.append_nil]
  | cons n after ih =>
    rw [List.length_cons] at hturns
    obtain ⟨turns, rfl⟩ : ∃ k, turns = k + 1 := ⟨turns - 1, by omega⟩
    have hend : ¬ it.eq t.end = true := fun heq => by simpa using (hat.eq_end_iff h.holds).mp heq
    have hderef := hat.deref h.holds
    suffices hturn : ∃ it' t' buckets' before',
        sweepLoop erases (turns + 1 + 1) (visited, it, t) =
          sweepLoop erases (turns + 1) (visited ++ [n.2], it', t') ∧ t'.Stores hash buckets' ∧
        it'.At buckets' before' after ∧ before'.map Prod.snd = kept erases (visited ++ [n.2]) by
      obtain ⟨it', t', buckets', before', hturn, h', hat', hbefore'⟩ := hturn
      obtain ⟨t'', buckets'', hrest, h'', hkept⟩ := ih _ h' hat' hbefore' turns (by omega)
      refine ⟨t'', buckets'', ?_, h'', by simpa using hkept⟩
      rw [hturn, hrest]
      simp
    have hkept := kept_concat erases visited n.2
    cases herases : erases visited.length with
    | true =>
      obtain ⟨it', t', buckets', herase, h', hat'⟩ := h.eraseEntry hat
      refine ⟨it', t', buckets', before, Loop.whileM_inl _ _ ?_, h', hat', ?_⟩
      · dsimp only
        rw [if_neg hend, hderef]
        dsimp only [bind, Except.bind]
        rw [if_pos herases, eraseAt, if_neg hend, herase]
        rfl
      · rw [hkept, herases, hbefore]
        simp
    | false =>
      obtain ⟨it', hincrement, hat'⟩ := hat.increment h.holds
      refine ⟨it', t, buckets, before ++ [n], Loop.whileM_inl _ _ ?_, h, hat', ?_⟩
      · dsimp only
        rw [if_neg hend, hderef]
        dsimp only [bind, Except.bind]
        rw [herases, hincrement]
        rfl
      · rw [hkept, herases, List.map_append, hbefore]
        simp

theorem findLoop_eq {turns : ℕ} (h : s.Holds m (l ++ r)) (hpos : pos.At l r)
    (hturns : r.length < turns) :
    (∃ l' n r' pos', findLoop m key turns pos = .ok (some pos') ∧ l ++ r = l' ++ n :: r' ∧
      pos'.At l' (n :: r') ∧ (n.2.1 == key) = true) ∨
    findLoop m key turns pos = .ok none ∧ ∀ n ∈ r, (n.2.1 == key) = false := by
  obtain ⟨turns, rfl⟩ : ∃ k, turns = k + 1 := ⟨turns - 1, by omega⟩
  induction r generalizing l pos turns with
  | nil =>
    refine Or.inr ⟨Loop.whileM_inr _ _ ?_, fun n hn => absurd hn List.not_mem_nil⟩
    rw [if_pos (hpos.eq_end_iff.mpr rfl)]
    rfl
  | cons n r ih =>
    have hend : ¬ pos.eq Slist.«end» = true := fun heq => by simpa using hpos.eq_end_iff.mp heq
    cases hkey : n.2.1 == key with
    | true =>
      refine Or.inl ⟨l, n, r, pos, Loop.whileM_inr _ _ ?_, rfl, hpos, hkey⟩
      rw [if_neg hend, hpos.deref h]
      dsimp only [bind, Except.bind]
      rw [if_pos hkey]
      rfl
    | false =>
      obtain ⟨pos', hincrement, hpos'⟩ := hpos.increment h
      have hturn : findLoop m key (turns + 1) pos = findLoop m key turns pos' := by
        refine Loop.whileM_inl _ _ ?_
        rw [if_neg hend, hpos.deref h]
        dsimp only [bind, Except.bind]
        rw [hkey, hincrement]
        rfl
      rw [List.length_cons] at hturns
      obtain ⟨turns, rfl⟩ : ∃ k, turns = k + 1 := ⟨turns - 1, by omega⟩
      rw [hturn]
      have hrest := ih (l := l ++ [n]) (by simpa using h) hpos' turns (by omega)
      rw [List.append_assoc] at hrest
      rcases hrest with hfound | ⟨hnone, hall⟩
      · exact Or.inl hfound
      · exact Or.inr ⟨hnone, List.forall_mem_cons.mpr ⟨hkey, hall⟩⟩

theorem findIn_eq (key : κ) (h : s.Holds t.memory l) :
    (∃ l' n r' pos, t.findIn key s = .ok (some pos) ∧ l = l' ++ n :: r' ∧
      pos.At l' (n :: r') ∧ (n.2.1 == key) = true) ∨
    t.findIn key s = .ok none ∧ ∀ n ∈ l, (n.2.1 == key) = false :=
  findLoop_eq (l := []) h h.atBegin (Nat.lt_succ_of_le (h.segment.length_le h.nodup))

theorem Filed.absent (h : Filed hash (front ++ l :: back))
    (hhash : ∀ a b : κ, (a == b) = true → hash a = hash b)
    (hindex : (hash key).toNat % (front ++ l :: back).length = front.length)
    (hl : ∀ n ∈ l, (n.2.1 == key) = false) :
    ofList (contents (front ++ l :: back)) key = none := by
  refine FiniteMap.ofList_eq_none.mpr fun e he => Bool.eq_false_iff.mpr fun heq => ?_
  obtain ⟨n, hn, rfl⟩ := List.mem_map.mp he
  obtain ⟨l', hl', hnl⟩ := List.mem_flatten.mp hn
  obtain ⟨i, hi⟩ := List.mem_iff_getElem?.mp hl'
  have hfiled := h i l' hi n hnl
  rw [hhash _ _ heq, hindex] at hfiled
  subst hfiled
  obtain rfl : l = l' := by simpa using hi
  exact absurd heq (by simp [hl n hnl])

theorem Stores.lookup [EquivBEq κ] (h : t.Stores hash buckets)
    (hhash : ∀ a b : κ, (a == b) = true → hash a = hash b) (key : κ) :
    ∃ front l back s, buckets = front ++ l :: back ∧ t.index hash key = front.length ∧
      t.bucket front.length = .ok s ∧ s.Holds t.memory l ∧
      ((∃ before n after pos, t.findIn key s = .ok (some pos) ∧
        HashTableIterator.At buckets before (n :: after) ⟨front.length, pos⟩ ∧
        (n.2.1 == key) = true ∧ ofList (contents buckets) key = some n.2) ∨
      t.findIn key s = .ok none ∧ ofList (contents buckets) key = none) := by
  obtain ⟨front, l, back, rfl, hindex⟩ := h.holds.exists_bucket hash key
  obtain ⟨s, hbucket, hs⟩ := h.holds.bucket
  refine ⟨front, l, back, s, rfl, hindex, hbucket, hs, ?_⟩
  rcases findIn_eq key hs with ⟨l', n, r', pos, hfound, rfl, hpos, hkey⟩ | ⟨hnone, hall⟩
  · have hat : HashTableIterator.At (front ++ (l' ++ n :: r') :: back) (front.flatten ++ l')
        (n :: r' ++ back.flatten) ⟨front.length, pos⟩ :=
      ⟨front, l', n :: r', back, rfl, rfl, hpos, rfl, rfl, fun hnil => by cases hnil⟩
    refine Or.inl ⟨_, n, _, pos, hfound, hat, hkey, h.distinct.find ?_ hkey⟩
    rw [contents_of_at hat]
    simp
  · refine Or.inr ⟨hnone, h.filed.absent hhash ?_ hall⟩
    rw [← hindex, h.holds.index]

def Represents (hash : κ → UInt32) (t : HashTable κ τ) (F : FiniteMap κ τ) : Prop :=
  ∃ buckets, t.Stores hash buckets ∧ F = ofList (contents buckets)

def Simulates (A : Allocator (κ × τ)) (hash : κ → UInt32) (t : HashTable κ τ)
    (F : FiniteMap κ τ) (op : MapOp κ τ) : Prop :=
  ∃ response t' F', t.step A hash op = .ok (response, t') ∧ MapStep F op response F' ∧
    t'.Represents hash F'

theorem Stores.step_eraseAll (h : t.Stores hash buckets) :
    t.Simulates A hash (ofList (contents buckets)) .eraseAll := by
  obtain ⟨t', herase, hholds⟩ := h.holds.eraseAll
  have hpos : 0 < buckets.length := h.holds.tableSize ▸ t.nonempty
  refine ⟨.done, t', _, ?_, MapStep.eraseAll, _, ⟨hholds, (stores_new hash hpos).filed,
    (stores_new hash hpos).distinct⟩, ?_⟩
  · rw [step, herase]
    rfl
  · simp [contents]

variable [EquivBEq κ]

theorem Stores.find (h : t.Stores hash buckets)
    (hhash : ∀ a b : κ, (a == b) = true → hash a = hash b) (key : κ) :
    ∃ it, t.find hash key = .ok it ∧
      ((∃ before n after, it.At buckets before (n :: after) ∧ (n.2.1 == key) = true ∧
        ofList (contents buckets) key = some n.2) ∨
      it = t.end ∧ ofList (contents buckets) key = none) := by
  obtain ⟨front, l, back, s, -, hindex, hbucket, hs, hcases⟩ := h.lookup hhash key
  rw [HashTable.find, hindex, hbucket]
  dsimp only [bind, Except.bind]
  rcases hcases with ⟨before, n, after, pos, hfound, hat⟩ | ⟨hnone, habsent⟩
  · rw [hfound]
    exact ⟨_, rfl, Or.inl ⟨before, n, after, hat⟩⟩
  · rw [hnone]
    exact ⟨_, rfl, Or.inr ⟨rfl, habsent⟩⟩

theorem Stores.step_find (h : t.Stores hash buckets)
    (hhash : ∀ a b : κ, (a == b) = true → hash a = hash b) (key : κ) :
    t.Simulates A hash (ofList (contents buckets)) (.find key) := by
  have hstep : MapStep (ofList (contents buckets)) (.find key) _ _ := MapStep.find
  obtain ⟨it, hfind, ⟨before, n, after, hat, -, hsome⟩ | ⟨rfl, hnone⟩⟩ := h.find hhash key
  · have hend : ¬ it.eq t.end = true := fun heq => by simpa using (hat.eq_end_iff h.holds).mp heq
    rw [hsome] at hstep
    refine ⟨_, t, _, ?_, hstep, buckets, h, rfl⟩
    rw [step, hfind]
    dsimp only [bind, Except.bind]
    rw [if_neg hend, hat.deref h.holds]
    rfl
  · have hend : t.end.eq t.end = true := (h.holds.end_at.eq_end_iff h.holds).mpr rfl
    rw [hnone] at hstep
    refine ⟨_, t, _, ?_, hstep, buckets, h, rfl⟩
    rw [step, hfind]
    dsimp only [bind, Except.bind]
    rw [if_pos hend]
    rfl

theorem Stores.step_erase (h : t.Stores hash buckets)
    (hhash : ∀ a b : κ, (a == b) = true → hash a = hash b) (key : κ) :
    t.Simulates A hash (ofList (contents buckets)) (.erase key) := by
  have hstep : MapStep (ofList (contents buckets)) (.erase key) _ _ := MapStep.erase
  obtain ⟨it, hfind, ⟨before, n, after, hat, hkey, hsome⟩ | ⟨rfl, hnone⟩⟩ := h.find hhash key
  · have hend : ¬ it.eq t.end = true := fun heq => by simpa using (hat.eq_end_iff h.holds).mp heq
    obtain ⟨it', t', buckets', herase, h', hat'⟩ := h.eraseEntry hat
    rw [hsome] at hstep
    refine ⟨_, t', _, ?_, hstep, buckets', h', ?_⟩
    · rw [step, HashTable.erase, hfind]
      dsimp only [bind, Except.bind]
      rw [if_neg hend, herase]
      rfl
    · have hdistinct := h.distinct
      rw [contents_of_at hat, List.map_cons] at hdistinct
      rw [contents_of_at hat, contents_of_at hat', List.map_cons]
      exact (hdistinct.ofList_remove hkey).symm
  · have hend : t.end.eq t.end = true := (h.holds.end_at.eq_end_iff h.holds).mpr rfl
    rw [hnone] at hstep
    refine ⟨_, t, _, ?_, hstep, buckets, h, FiniteMap.erase_of_none hnone⟩
    rw [step, HashTable.erase, hfind]
    dsimp only [bind, Except.bind]
    rw [if_pos hend]
    rfl

theorem Stores.insertNew (h : t.Stores hash (front ++ l :: back)) (hs : s.Holds t.memory l)
    (hindex : t.index hash key = front.length)
    (hnone : ofList (contents (front ++ l :: back)) key = none) (A : Allocator (κ × τ)) (value : τ) :
    let t' := t.setBucket front.length (s.pushFront A (key, value) t.memory).1
      (s.pushFront A (key, value) t.memory).2
    t'.Stores hash (front ++ ((A.new t.memory, key, value) :: l) :: back) ∧
      ofList (contents (front ++ ((A.new t.memory, key, value) :: l) :: back)) =
        (ofList (contents (front ++ l :: back))).insert key value := by
  have hperm : ((key, value) :: contents (front ++ l :: back)).Perm
      (contents (front ++ ((A.new t.memory, key, value) :: l) :: back)) := by
    simp only [contents, List.flatten_append, List.flatten_cons, List.map_append, List.cons_append,
      List.map_cons]
    exact List.perm_middle.symm
  have hdistinct : Distinct ((key, value) :: contents (front ++ l :: back)) := by
    refine List.pairwise_cons.mpr ⟨fun e he => ?_, h.distinct⟩
    exact BEq.comm (a := e.1) (b := key) ▸ FiniteMap.ofList_eq_none.mp hnone e he
  refine ⟨⟨h.holds.pushFront hs A _, h.filed.replace ?_, hdistinct.perm hperm⟩, ?_⟩
  · refine List.forall_mem_cons.mpr ⟨?_, fun n hn => h.filed.bucket hn⟩
    rw [← hindex, h.holds.index]
  · rw [← hdistinct.ofList_perm hperm, FiniteMap.ofList_cons]

theorem Stores.step_insert (h : t.Stores hash buckets)
    (hhash : ∀ a b : κ, (a == b) = true → hash a = hash b) (key : κ) (value : τ) :
    t.Simulates A hash (ofList (contents buckets)) (.insert key value) := by
  obtain ⟨front, l, back, s, rfl, hindex, hbucket, hs, hcases⟩ := h.lookup hhash key
  rcases hcases with ⟨before, n, after, pos, hfound, hat, -, hsome⟩ | ⟨hnone, habsent⟩
  · refine ⟨_, t, _, ?_, MapStep.insertOld hsome, _, h, rfl⟩
    rw [step, HashTable.insert]
    dsimp only
    rw [hindex, hbucket]
    dsimp only [bind, Except.bind]
    rw [hfound]
    dsimp only [pure, Except.pure]
    rw [hat.deref h.holds]
  · obtain ⟨h', hmap⟩ := h.insertNew hs hindex habsent A value
    have hat : HashTableIterator.At (front ++ ((A.new t.memory, key, value) :: l) :: back)
        front.flatten ((A.new t.memory, key, value) :: l ++ back.flatten)
        ⟨front.length, (s.pushFront A (key, value) t.memory).2.begin⟩ :=
      ⟨front, [], _, back, rfl, rfl, (hs.pushFront A (key, value)).atBegin, by simp, rfl,
        fun hnil => by cases hnil⟩
    refine ⟨_, _, _, ?_, MapStep.insertNew habsent, _, h', hmap.symm⟩
    rw [step, HashTable.insert]
    dsimp only
    rw [hindex, hbucket]
    dsimp only [bind, Except.bind]
    rw [hnone]
    dsimp only [pure, Except.pure]
    rw [hat.deref h'.holds]

theorem Stores.step_size (h : t.Stores hash buckets) :
    t.Simulates A hash (ofList (contents buckets)) .size := by
  have hsize : (ofList (contents buckets)).size = t.size := by
    rw [h.distinct.size, h.holds.size, contents, List.length_map]
  exact ⟨_, t, _, rfl, hsize ▸ MapStep.size, buckets, h, rfl⟩

theorem Stores.step_sweep (h : t.Stores hash buckets) (erases : ℕ → Bool) :
    t.Simulates A hash (ofList (contents buckets)) (.sweep erases) := by
  have hturns : buckets.flatten.length < t.size + 1 := by
    rw [h.holds.size]
    exact Nat.lt_succ_self _
  obtain ⟨t', buckets', hsweep, h', hkept⟩ :=
    sweepLoop_eq erases [] (t.size + 1) h h.holds.begin_at rfl hturns
  rw [List.nil_append] at hsweep hkept
  refine ⟨.visited (contents buckets), t', _, ?_,
    MapStep.sweep h.distinct.nodup fun e => h.distinct.mem_iff, buckets', h',
    congrArg ofList hkept.symm⟩
  rw [step, sweep, hsweep]
  rfl

theorem Represents.step {F : FiniteMap κ τ} (h : t.Represents hash F)
    (hhash : ∀ a b : κ, (a == b) = true → hash a = hash b) (op : MapOp κ τ) :
    t.Simulates A hash F op := by
  obtain ⟨buckets, h, rfl⟩ := h
  cases op with
  | insert key value => exact h.step_insert hhash key value
  | find key => exact h.step_find hhash key
  | erase key => exact h.step_erase hhash key
  | eraseAll => exact h.step_eraseAll
  | size => exact h.step_size
  | sweep erases => exact h.step_sweep erases

theorem Represents.run {F : FiniteMap κ τ} (h : t.Represents hash F)
    (hhash : ∀ a b : κ, (a == b) = true → hash a = hash b) (ops : List (MapOp κ τ)) :
    ∃ responses t' F', t.run A hash ops = .ok (responses, t') ∧ MapRun F ops responses F' := by
  induction ops generalizing t F with
  | nil => exact ⟨[], t, F, rfl, MapRun.nil⟩
  | cons op ops ih =>
    obtain ⟨response, t', F', hop, hstep, h'⟩ := h.step (A := A) hhash op
    obtain ⟨responses, t'', F'', hops, hrun⟩ := ih h'
    refine ⟨response :: responses, t'', F'', ?_, MapRun.cons hstep hrun⟩
    rw [HashTable.run, hop]
    dsimp only [bind, Except.bind]
    rw [hops]
    rfl

/-- Every sequence of operations on a table is one on a finite map, and its loops visit each entry
once. -/
theorem hashTable_runs (A : Allocator (κ × τ)) (hash : κ → UInt32)
    (hhash : ∀ a b : κ, (a == b) = true → hash a = hash b) {k : ℕ} (hk : 0 < k)
    (ops : List (MapOp κ τ)) :
    ∃ responses t F, (new k hk).run A hash ops = .ok (responses, t) ∧
      MapRun FiniteMap.empty ops responses F :=
  Represents.run ⟨_, stores_new hash hk, by simp [contents]⟩ hhash ops

/-- Keys with the same hash, and a loop that erases the first entry it visits. -/
theorem hashTable_runs_four : ∃ responses t F,
    (new 2 (by decide) : HashTable ℕ ℕ).run Allocator.atBound UInt32.ofNat
      [.insert 1 10, .insert 3 30, .insert 1 11, .insert 2 20, .sweep (· = 0), .size] =
        .ok (responses, t) ∧
    MapRun FiniteMap.empty
      [.insert 1 10, .insert 3 30, .insert 1 11, .insert 2 20, .sweep (· = 0), .size] responses F :=
  hashTable_runs Allocator.atBound UInt32.ofNat (fun a b h => by rw [eq_of_beq h]) (by decide) _

end HashTable

end MbaUtils
end Livingstone
