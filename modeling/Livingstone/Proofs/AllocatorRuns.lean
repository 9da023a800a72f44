import Livingstone.Lib.Blocks
import Livingstone.Lib.Loop
import Livingstone.Utils.ArrayAllocator

/-! The allocator hands out memory once, as long as no more than one chunk is reclaimed. With more,
every list that gets a chunk back gets the one that `malloc` returned last. -/

namespace Livingstone
namespace ArrayAllocator

open Function (update)
open Loop Memory

variable {s s' : State} {i logN a malloc initialBlock : ℕ} {held : List Block}

theorem lg2Loop_spec (turns x n sumBi : ℕ) (h : x < turns) :
    n < (lg2Loop turns x n sumBi).1 ∧ sumBi ≤ (lg2Loop turns x n sumBi).2 ∧
      x < 2 ^ ((lg2Loop turns x n sumBi).1 - n) ∧
      ((lg2Loop turns x n sumBi).2 ≤ sumBi → x = 0) ∧
      ((lg2Loop turns x n sumBi).2 ≤ sumBi + 1 → x ≤ 2 ^ ((lg2Loop turns x n sumBi).1 - n - 1)) := by
  induction turns generalizing x n sumBi with
  | zero => omega
  | succ turns ih =>
    unfold lg2Loop
    split
    case isTrue hx =>
      have hlt : x < 2 := by omega
      refine ⟨Nat.lt_succ_self n, Nat.le_add_right _ _, ?_, fun hle => ?_, fun _ => ?_⟩
      · simpa using hlt
      · dsimp only at hle
        omega
      · simp
        omega
    case isFalse hx =>
      obtain ⟨hn, hsum, hlt, hzero, hone⟩ := ih (x / 2) (n + 1) (sumBi + x % 2) (by omega)
      generalize lg2Loop turns (x / 2) (n + 1) (sumBi + x % 2) = r at *
      have hpow : 2 ^ (r.1 - n) = 2 * 2 ^ (r.1 - (n + 1)) := by
        rw [← pow_succ']
        congr 1
        omega
      refine ⟨by omega, by omega, by omega, fun hle => absurd (hzero (by omega)) hx, fun hle => ?_⟩
      by_cases hodd : x % 2 = 1
      · exact absurd (hzero (by omega)) hx
      · have hhalf := hone (by omega)
        have hpow' : 2 ^ (r.1 - n - 1) = 2 * 2 ^ (r.1 - (n + 1) - 1) := by
          rw [← pow_succ']
          congr 1
          omega
        omega

theorem le_exp2_lg2 (x : ℕ) : x ≤ exp2 (lg2 x) := by
  obtain ⟨hn, -, hlt, -, hone⟩ := lg2Loop_spec (x + 1) x 0 0 (Nat.lt_succ_self x)
  unfold exp2 lg2
  generalize lg2Loop (x + 1) x 0 0 = r at *
  dsimp only
  split
  case isTrue h =>
    rw [Nat.sub_add_cancel hn]
    exact hlt.le
  case isFalse h => exact hone (by omega)

theorem lg2Loop_pow (turns i n sumBi : ℕ) (h : i < turns) :
    lg2Loop turns (2 ^ i) n sumBi = (n + i + 1, sumBi + 1) := by
  induction i generalizing turns n sumBi with
  | zero =>
    obtain ⟨turns, rfl⟩ := Nat.exists_eq_succ_of_ne_zero (by omega : turns ≠ 0)
    simp [lg2Loop]
  | succ i ih =>
    obtain ⟨turns, rfl⟩ := Nat.exists_eq_succ_of_ne_zero (by omega : turns ≠ 0)
    have hdiv : 2 ^ (i + 1) / 2 = 2 ^ i := by omega
    have hmod : 2 ^ (i + 1) % 2 = 0 := by omega
    have hpos : ¬ 2 ^ i = 0 := by positivity
    unfold lg2Loop
    rw [hdiv, if_neg hpos, hmod, ih turns (n + 1) (sumBi + 0) (by omega)]
    simp
    omega

theorem lg2_exp2 (i : ℕ) : lg2 (exp2 i) = i := by
  unfold lg2 exp2
  rw [lg2Loop_pow _ i 0 0 (Nat.lt_succ_of_lt Nat.lt_two_pow_self)]
  simp

/-- The memory of the blocks on the free lists, of the size that their list has. -/
def freeBlocks (freelists : ℕ → List ℕ) : List Block :=
  (List.range MAX_ITEM_SIZE).flatMap fun i => (freelists i).map fun a => ⟨a, exp2 i⟩

theorem mem_freeBlocks {b : Block} {freelists : ℕ → List ℕ} : b ∈ freeBlocks freelists ↔
    ∃ i < MAX_ITEM_SIZE, ∃ a ∈ freelists i, ⟨a, exp2 i⟩ = b := by
  simp only [freeBlocks, List.mem_flatMap, List.mem_range, List.mem_map]

theorem freeBlocks_push (hi : i < MAX_ITEM_SIZE) (freelists : ℕ → List ℕ) (a : ℕ) :
    (freeBlocks (update freelists i (a :: freelists i))).Perm
      (⟨a, exp2 i⟩ :: freeBlocks freelists) := by
  have hblocks : (fun j => (update freelists i (a :: freelists i) j).map fun a => (⟨a, exp2 j⟩ : Block)) =
      update (fun j => (freelists j).map fun a => (⟨a, exp2 j⟩ : Block)) i
        (⟨a, exp2 i⟩ :: (freelists i).map fun a => ⟨a, exp2 i⟩) := by
    funext j
    by_cases hj : j = i
    · subst hj
      simp
    · simp [hj]
  unfold freeBlocks
  rw [hblocks]
  exact Blocks.perm_flatMap_update List.nodup_range (List.mem_range.mpr hi) _

theorem freeBlocks_pop (hi : i < MAX_ITEM_SIZE) {freelists : ℕ → List ℕ} {rest : List ℕ}
    (h : freelists i = a :: rest) :
    (freeBlocks freelists).Perm (⟨a, exp2 i⟩ :: freeBlocks (update freelists i rest)) := by
  have hpush := freeBlocks_push hi (update freelists i rest) a
  rwa [Function.update_self, Function.update_idem, ← h, Function.update_eq_self] at hpush

theorem freeBlocks_nil {freelists : ℕ → List ℕ} (h : ∀ i, freelists i = []) :
    freeBlocks freelists = [] := by
  simp [freeBlocks, h]

/-- The blocks that are held and those on the free lists. -/
def Holds (s : State) (held : List Block) : Prop :=
  Packed s.chunks (held ++ freeBlocks s.freelists)

def Sized (chunks : List Block) : Prop := ∀ c ∈ chunks, ∃ i < MAX_ITEM_SIZE, c.size = exp2 i

structure Frame (s s' : State) : Prop where
  live : s'.live = s.live
  sized : Sized s.chunks → Sized s'.chunks

theorem Frame.refl (s : State) : Frame s s := ⟨rfl, id⟩

theorem Frame.trans {s'' : State} (h : Frame s s') (h' : Frame s' s'') : Frame s s'' :=
  ⟨h'.live.trans h.live, fun hsized => h'.sized (h.sized hsized)⟩

theorem Holds.push (h : Holds s (⟨a, exp2 i⟩ :: held)) (hi : i < MAX_ITEM_SIZE)
    (hs : pushFreeBlock i a s = .ok s') : Holds s' held ∧ Frame s s' := by
  unfold pushFreeBlock at hs
  split at hs
  · cases hs
  · obtain rfl := Except.ok.inj hs
    refine ⟨h.perm ?_, rfl, id⟩
    exact (List.perm_middle.symm.trans
      ((freeBlocks_push hi s.freelists a).symm.append_left held))

theorem Holds.pop (h : Holds s held) (hi : i < MAX_ITEM_SIZE) (hs : popFreeBlock i s = .ok (a, s')) :
    Holds s' (⟨a, exp2 i⟩ :: held) ∧ Frame s s' := by
  unfold popFreeBlock at hs
  cases hlist : s.freelists i with
  | nil =>
    rw [hlist] at hs
    cases hs
  | cons b rest =>
    rw [hlist] at hs
    obtain ⟨rfl, rfl⟩ := Prod.mk.inj (Except.ok.inj hs)
    refine ⟨h.perm ?_, rfl, id⟩
    exact ((freeBlocks_pop hi hlist).append_left held).trans List.perm_middle

theorem Holds.splitDown {turns : ℕ} (h : Holds s held) (hi : logN + turns < MAX_ITEM_SIZE)
    (hs : splitDown logN turns s = .ok s') : Holds s' held ∧ Frame s s' := by
  induction turns generalizing s with
  | zero =>
    obtain rfl := Except.ok.inj hs
    exact ⟨h, Frame.refl s⟩
  | succ turns ih =>
    obtain ⟨⟨toSplit, s₁⟩, h₁, hs⟩ := bind_eq_ok hs
    obtain ⟨s₂, h₂, hs⟩ := bind_eq_ok hs
    obtain ⟨s₃, h₃, hs⟩ := bind_eq_ok hs
    obtain ⟨hpop, hframe₁⟩ := h.pop (i := logN + turns + 1) hi h₁
    have hhalf : exp2 (logN + turns + 1) = exp2 (logN + turns) + exp2 (logN + turns) := by
      unfold exp2
      rw [pow_succ]
      omega
    have hsplit : Holds s₁ (⟨toSplit, exp2 (logN + turns)⟩ ::
        ⟨toSplit + exp2 (logN + turns), exp2 (logN + turns)⟩ :: held) := by
      unfold Holds at hpop
      rw [hhalf] at hpop
      exact hpop.split
    have hi' : logN + turns < MAX_ITEM_SIZE := by omega
    obtain ⟨hpush, hframe₂⟩ := hsplit.push hi' h₂
    obtain ⟨hpush', hframe₃⟩ := hpush.push hi' h₃
    obtain ⟨hrest, hframe₄⟩ := ih hpush' hi' hs
    exact ⟨hrest, ((hframe₁.trans hframe₂).trans hframe₃).trans hframe₄⟩

theorem Holds.getOneBlock (h : Holds s held) (hi : i < MAX_ITEM_SIZE)
    (hfresh : ∀ c ∈ s.chunks, Block.Apart ⟨malloc, exp2 i⟩ c)
    (hs : getOneBlockFromMalloc i malloc s = .ok s') : Holds s' held ∧ Frame s s' := by
  unfold getOneBlockFromMalloc at hs
  split at hs
  · cases hs
  case isFalse hlist =>
    rw [not_not] at hlist
    obtain rfl := Except.ok.inj hs
    refine ⟨(h.grow hfresh).perm ?_, rfl, fun hsized => ?_⟩
    · have hpush := freeBlocks_push hi s.freelists malloc
      rw [hlist] at hpush
      exact List.perm_middle.symm.trans (hpush.symm.append_left held)
    · exact List.forall_mem_cons.mpr ⟨⟨i, hi, rfl⟩, hsized⟩

theorem findFreeList_le (s : State) (turns isf : ℕ) : isf ≤ findFreeList s turns isf ∧
    findFreeList s turns isf ≤ max INITIAL_BLOCK_LG2 isf := by
  induction turns generalizing isf with
  | zero => exact ⟨le_rfl, le_max_right _ _⟩
  | succ turns ih =>
    unfold findFreeList
    split
    case isTrue h =>
      obtain ⟨hle, hmax⟩ := ih (isf + 1)
      exact ⟨by omega, by omega⟩
    case isFalse h => exact ⟨le_rfl, le_max_right _ _⟩

theorem Holds.allocate (h : Holds s held)
    (hfresh : ∀ c ∈ s.chunks, Block.Apart ⟨malloc, exp2 (max INITIAL_BLOCK_LG2 logN)⟩ c)
    (hs : L2_allocate_exp2 logN malloc s = .ok (a, s')) :
    Holds s' (⟨a, exp2 logN⟩ :: held) ∧ Frame s s' := by
  unfold L2_allocate_exp2 at hs
  split at hs
  · cases hs
  case isFalse hlog =>
    rw [not_not] at hlog
    obtain ⟨hle, hmax⟩ := findFreeList_le s INITIAL_BLOCK_LG2 logN
    dsimp only at hs
    generalize findFreeList s INITIAL_BLOCK_LG2 logN = isf at *
    have hisf : isf < MAX_ITEM_SIZE := hmax.trans_lt (max_lt (by decide) hlog)
    split at hs
    · cases hs
    case isFalse hfound =>
      rw [not_not] at hfound
      have hrest : ∀ s₁, Holds s₁ held ∧ Frame s s₁ → (if s₁.freelists isf = [] then
          .error .assertion else ArrayAllocator.splitDown logN (isf - logN) s₁ >>= popFreeBlock logN) =
            Except.ok (ε := AllocError) (a, s') →
          Holds s' (⟨a, exp2 logN⟩ :: held) ∧ Frame s s' := by
        rintro s₁ ⟨hholds₁, hframe₁⟩ hs
        split at hs
        · cases hs
        obtain ⟨s₂, h₂, hs⟩ := bind_eq_ok hs
        have hturns : logN + (isf - logN) < MAX_ITEM_SIZE := by omega
        obtain ⟨hholds₂, hframe₂⟩ := hholds₁.splitDown hturns h₂
        obtain ⟨hholds₃, hframe₃⟩ := hholds₂.pop hlog hs
        exact ⟨hholds₃, (hframe₁.trans hframe₂).trans hframe₃⟩
      split at hs
      case isTrue hlist =>
        have hlarge : isf = max INITIAL_BLOCK_LG2 logN := by
          have hge := hfound.resolve_right (not_not.mpr hlist)
          omega
        obtain ⟨s₁, h₁, hs⟩ := bind_eq_ok hs
        exact hrest s₁ (h.getOneBlock hisf (hlarge ▸ hfresh) h₁) hs
      case isFalse => exact hrest s ⟨h, Frame.refl s⟩ hs

/-- The memory of a block that is live, of the size that was allocated for it. -/
def liveBlock (p : ℕ × ℕ) : Block := ⟨p.1, exp2 (lg2 (ensureMinimalBlockSize p.2))⟩

structure Sound (s : State) : Prop where
  packed : Holds s (s.live.map liveBlock)
  large : ∀ p ∈ s.live, p.2 ≤ (liveBlock p).size

/-- The free lists hold every chunk exactly once. -/
def HoldsChunks (s : State) : Prop := (freeBlocks s.freelists).Perm s.chunks

/-- A run in which every call meets `guard` in the state before it. -/
inductive Run (initialBlock : ℕ) (guard : State → Call → Prop) : List Call → State → Prop
  | nil : Run initialBlock guard [] {}
  | snoc {calls : List Call} {call : Call} {s s' : State} (h : Run initialBlock guard calls s)
      (hv : Legal initialBlock s call) (hg : guard s call) (hs : step initialBlock s call = .ok s') :
      Run initialBlock guard (calls ++ [call]) s'

/-- `L2_alloc_reclaim` is called with at most one chunk. -/
def OneChunk (s : State) (call : Call) : Prop := call = .reclaim → s.chunks.length ≤ 1

structure Inv (s : State) : Prop where
  packed : Holds s (s.live.map liveBlock)
  sized : Sized s.chunks

theorem liveBlock_large (p : ℕ × ℕ) : p.2 ≤ (liveBlock p).size := by
  have hmin : p.2 ≤ ensureMinimalBlockSize p.2 := by
    unfold ensureMinimalBlockSize
    split <;> omega
  exact hmin.trans (le_exp2_lg2 _)

theorem holdsChunks_reclaim (hsized : Sized s.chunks) (hle : s.chunks.length ≤ 1) :
    HoldsChunks (L2_alloc_reclaim s) := by
  obtain ⟨isReady, freelists, chunks, live⟩ := s
  match chunks with
  | [] => exact (freeBlocks_nil fun _ => rfl) ▸ List.Perm.refl _
  | [⟨b, size⟩] =>
    obtain ⟨i, hi, rfl⟩ := hsized _ List.mem_cons_self
    have hpush := freeBlocks_push hi (fun _ => []) b
    rw [freeBlocks_nil fun _ => rfl] at hpush
    simpa [HoldsChunks, L2_alloc_reclaim, lg2_exp2] using hpush
  | _ :: _ :: _ => simp at hle

theorem base_of_reclaim {b c : Block} {rest : List Block} (h : s.chunks = c :: rest)
    (hb : b ∈ freeBlocks (L2_alloc_reclaim s).freelists) : b.base = c.base := by
  obtain ⟨i, -, a, ha, rfl⟩ := mem_freeBlocks.mp hb
  have hlists : ∀ (chunks : List Block) (freelists : ℕ → List ℕ),
      (∀ i, ∀ a ∈ freelists i, a = c.base) → ∀ i, ∀ a ∈ chunks.foldl (fun freelists d =>
        update freelists (lg2 d.size) [c.base]) freelists i, a = c.base := by
    intro chunks
    induction chunks with
    | nil => exact fun _ hall => hall
    | cons d chunks ih =>
      intro freelists hall
      refine ih _ fun i a ha => ?_
      by_cases hi : i = lg2 d.size
      · subst hi
        simpa using ha
      · dsimp only at ha
        rw [Function.update_of_ne hi] at ha
        exact hall i a ha
  unfold L2_alloc_reclaim at ha
  rw [h] at ha
  exact hlists _ _ (fun _ _ h => absurd h List.not_mem_nil) i a ha

theorem holdsChunks_iff (h : Inv s) :
    HoldsChunks (L2_alloc_reclaim s) ↔ s.chunks.length ≤ 1 := by
  refine ⟨fun hholds => ?_, holdsChunks_reclaim h.sized⟩
  by_contra hlt
  obtain ⟨c, d, rest, hchunks⟩ : ∃ c d rest, s.chunks = c :: d :: rest := by
    match hs : s.chunks with
    | [] => simp [hs] at hlt
    | [_] => simp [hs] at hlt
    | c :: d :: rest => exact ⟨c, d, rest, rfl⟩
  have hd : d ∈ s.chunks := by simp [hchunks]
  have hc : c ∈ s.chunks := by simp [hchunks]
  have hbase := base_of_reclaim hchunks (hholds.mem_iff.mpr hd)
  have hapart := h.packed.chunksApart
  rw [hchunks] at hapart
  have hcd : c.Apart d := (List.pairwise_cons.mp hapart).1 d List.mem_cons_self
  obtain ⟨i, -, hi⟩ := h.sized c hc
  obtain ⟨j, -, hj⟩ := h.sized d hd
  have hposi : 0 < exp2 i := Nat.two_pow_pos i
  have hposj : 0 < exp2 j := Nat.two_pow_pos j
  unfold Block.Apart at hcd
  omega

theorem inv_reclaim (hpair : s.chunks.Pairwise Block.Apart) (hsized : Sized s.chunks)
    (hle : s.chunks.length ≤ 1) : Inv (L2_alloc_reclaim s) :=
  ⟨(Packed.reset hpair).perm (holdsChunks_reclaim hsized hle).symm, hsized⟩

theorem inv_makeReady (h : Inv s) : Inv (makeReady initialBlock s) := by
  unfold makeReady
  split
  case isTrue => exact h
  case isFalse =>
    have hsized : Sized [⟨initialBlock, INITIAL_BLOCK_BYTES⟩] := by
      simpa [Sized] using ⟨INITIAL_BLOCK_LG2, by decide, rfl⟩
    have hinv := inv_reclaim (s := { s with chunks := [⟨initialBlock, INITIAL_BLOCK_BYTES⟩] })
      (List.pairwise_singleton _ _) hsized le_rfl
    exact ⟨hinv.packed, hinv.sized⟩

theorem inv_alloc {sz : ℕ} (h : Inv s) (hv : Legal initialBlock s (.alloc sz malloc))
    (hs : L2_alloc initialBlock sz malloc s = .ok (a, s')) : Inv s' := by
  obtain ⟨⟨block, s₁⟩, h₁, hs⟩ := bind_eq_ok hs
  obtain ⟨rfl, rfl⟩ := Prod.mk.inj (Except.ok.inj hs)
  have hready : Inv (makeReady initialBlock s) := inv_makeReady h
  obtain ⟨hholds, hframe⟩ := hready.packed.allocate hv.2 h₁
  refine ⟨?_, hframe.sized hready.sized⟩
  rw [← hframe.live] at hholds
  exact hholds

theorem inv_free {ptr sz : ℕ} (h : Inv s) (hv : (ptr, sz) ∈ s.live)
    (hs : L2_free ptr sz s = .ok s') : Inv s' := by
  unfold L2_free at hs
  split at hs
  · obtain rfl := Except.ok.inj hs
    exact h
  dsimp only at hs
  split at hs
  · cases hs
  case isFalse hi =>
    rw [not_not] at hi
    obtain rfl := Except.ok.inj hs
    refine ⟨h.packed.perm ?_, h.sized⟩
    calc s.live.map liveBlock ++ freeBlocks s.freelists
      _ |>.Perm (liveBlock (ptr, sz) :: (s.live.erase (ptr, sz)).map liveBlock ++
            freeBlocks s.freelists) := ((List.perm_cons_erase hv).map liveBlock).append_right _
      _ |>.Perm _ := List.perm_middle.symm.trans
            ((freeBlocks_push hi s.freelists ptr).symm.append_left _)

theorem inv_step {call : Call} (h : Inv s) (hv : Legal initialBlock s call) (hg : OneChunk s call)
    (hs : step initialBlock s call = .ok s') : Inv s' := by
  cases call with
  | alloc sz malloc =>
    obtain ⟨⟨block, s₁⟩, h₁, hs⟩ := bind_eq_ok hs
    obtain rfl := Except.ok.inj hs
    exact inv_alloc h hv h₁
  | free ptr sz => exact inv_free h hv hs
  | reclaim =>
    obtain rfl := Except.ok.inj hs
    exact inv_reclaim h.packed.chunksApart h.sized (hg rfl)

theorem inv_run {calls : List Call} (h : Run initialBlock OneChunk calls s) : Inv s := by
  induction h with
  | nil =>
    have hnil : freeBlocks (fun _ => []) = [] := freeBlocks_nil fun _ => rfl
    refine ⟨?_, fun c hc => absurd hc List.not_mem_nil⟩
    change Packed [] ([] ++ freeBlocks fun _ => [])
    rw [hnil]
    exact ⟨List.Pairwise.nil, List.Pairwise.nil, fun b hb => absurd hb List.not_mem_nil⟩
  | snoc h hv hg hs ih => exact inv_step ih hv hg hs

/-- As long as no reclaim finds more than one chunk, memory is handed out once and reclaimed
whole. A reclaim that finds more loses all chunks but one. -/
theorem sound_of_oneChunk {calls : List Call} (h : Run initialBlock OneChunk calls s) :
    Sound s ∧ (calls.getLast? = some .reclaim → HoldsChunks s) ∧
      (HoldsChunks (L2_alloc_reclaim s) ↔ s.chunks.length ≤ 1) := by
  have hinv := inv_run h
  refine ⟨⟨hinv.packed, fun p _ => liveBlock_large p⟩, fun hlast => ?_, holdsChunks_iff hinv⟩
  cases h with
  | nil => simp at hlast
  | snoc h hv hg hs =>
    obtain rfl : _ = Call.reclaim := by simpa using hlast
    obtain rfl := Except.ok.inj hs
    exact holdsChunks_reclaim (inv_run h).sized (hg rfl)

/-- The initial block is handed out, freed and reclaimed. -/
theorem sound_of_initial : ∃ s,
    Run 4 OneChunk [.alloc 1048576 2000000, .free 4 1048576, .reclaim] s ∧ Sound s ∧
      ([.alloc 1048576 2000000, .free 4 1048576, .reclaim].getLast? = some Call.reclaim →
        HoldsChunks s) ∧ (HoldsChunks (L2_alloc_reclaim s) ↔ s.chunks.length ≤ 1) := by
  have h₁ : Run 4 OneChunk [.alloc 1048576 2000000] _ :=
    Run.nil.snoc (by decide) (by simp [OneChunk]) rfl
  have h₂ : Run 4 OneChunk (_ ++ [.free 4 1048576]) _ :=
    h₁.snoc List.mem_cons_self (by simp [OneChunk]) rfl
  have h₃ : Run 4 OneChunk (_ ++ [.reclaim]) _ := h₂.snoc trivial (fun _ => by decide) rfl
  exact ⟨_, h₃, sound_of_oneChunk h₃⟩

/-- Two chunks of one size are reclaimed. The initial block is on no list. -/
theorem not_holdsChunks_of_two : ¬ ∀ initialBlock calls s,
    Run initialBlock (fun _ _ => True) calls s →
      Sound s ∧ (calls.getLast? = some .reclaim → HoldsChunks s) := by
  intro hall
  have h₁ : Run 4 (fun _ _ => True) [.alloc 1048576 2000000] _ :=
    Run.nil.snoc (by decide) trivial rfl
  have h₂ : Run 4 (fun _ _ => True) (_ ++ [.alloc 1048576 2000000]) _ :=
    h₁.snoc (by decide) trivial rfl
  have h₃ : Run 4 (fun _ _ => True) (_ ++ [.reclaim]) _ := h₂.snoc trivial trivial rfl
  have hlength := ((hall _ _ _ h₃).2 rfl).length_eq
  revert hlength
  decide

end ArrayAllocator
end Livingstone
