import Mathlib.Tactic

/-! Writers of bytes that can fail, and readers that take bytes off the front of a list.
`Writes` says when a writer returns and what it returns, `Reads` that a reader takes these
bytes for a value whatever comes after them, and `Returns` what is true of every value
that a reader returns. -/

namespace Codec

variable {ε α β σ : Type}

def bytes : ℕ → ℕ → List ℕ
  | 0, _ => []
  | w + 1, v => bytes w (v / 256) ++ [v % 256]

@[simp] theorem length_bytes (w v : ℕ) : (bytes w v).length = w := by
  induction w generalizing v with
  | zero => rfl
  | succ w ih => simp [bytes, ih]

def width (v : ℕ) : ℕ := (Nat.digits 256 v).length

theorem width_le_iff {v w : ℕ} : width v ≤ w ↔ v < 256 ^ w :=
  Nat.digits_length_le_iff (by decide) v

theorem width_eq_zero {v : ℕ} : width v = 0 ↔ v = 0 := by
  rw [← Nat.le_zero, width_le_iff, pow_zero, Nat.lt_one_iff]

theorem lt_pow_width (v : ℕ) : v < 256 ^ width v := width_le_iff.mp le_rfl

abbrev Writer (ε : Type) := Except ε (List ℕ)

def append (x y : Except ε (List ℕ)) : Except ε (List ℕ) := do return (← x) ++ (← y)

instance : Append (Writer ε) := ⟨append⟩

def writeAll (w : α → Writer ε) (xs : List α) : Writer ε := xs.foldr (fun x ws => w x ++ ws) (.ok [])

/-- `w` returns if and only if `room` holds, and then `bs`. -/
def Writes (w : Writer ε) (room : Prop) (bs : List ℕ) : Prop := ∀ r, w = .ok r ↔ room ∧ r = bs

namespace Writes

variable {w w' : Writer ε} {room room' : Prop} {bs bs' : List ℕ}

theorem ok : Writes (.ok bs : Writer ε) True bs := by
  intro r
  simp [eq_comm]

theorem append (h : Writes w room bs) (h' : Writes w' room' bs') :
    Writes (w ++ w') (room ∧ room') (bs ++ bs') := by
  intro r
  cases hw : w with
  | error e =>
    have hroom : ¬ room := fun hr => by cases hw.symm.trans ((h bs).mpr ⟨hr, rfl⟩)
    exact ⟨fun hr => (by cases hr), fun hr => absurd hr.1.1 hroom⟩
  | ok x =>
    obtain ⟨hr, rfl⟩ := (h x).mp hw
    cases hw' : w' with
    | error e =>
      have hroom : ¬ room' := fun hr => by cases hw'.symm.trans ((h' bs').mpr ⟨hr, rfl⟩)
      exact ⟨fun hr => (by cases hr), fun hr => absurd hr.1.2 hroom⟩
    | ok y =>
      obtain ⟨hr', rfl⟩ := (h' y).mp hw'
      have happ : (.ok x ++ .ok y : Writer ε) = .ok (x ++ y) := rfl
      rw [happ, Except.ok.injEq, eq_comm]
      exact (and_iff_right ⟨hr, hr'⟩).symm

theorem congr (h : Writes w room bs) (hroom : room ↔ room') : Writes w room' bs :=
  fun r => (h r).trans (and_congr_left' hroom)

theorem all {f : α → Writer ε} {room : α → Prop} {enc : α → List ℕ} {xs : List α}
    (h : ∀ x ∈ xs, Writes (f x) (room x) (enc x)) :
    Writes (writeAll f xs) (∀ x ∈ xs, room x) (xs.flatMap enc) := by
  induction xs with
  | nil => exact ok.congr (by simp)
  | cons x xs ih =>
    have htail := ih fun y hy => h y (List.mem_cons_of_mem x hy)
    exact ((h x List.mem_cons_self).append htail).congr (by simp)

theorem returns (h : Writes w room bs) (hroom : room) : w = .ok bs := (h bs).mpr ⟨hroom, rfl⟩

end Writes

abbrev Reader (ε : Type) := StateT (List ℕ) (Except ε)

theorem lift_run {x : Except ε α} {a : α} (h : x = .ok a) (f : α → Reader ε β) (s : List ℕ) :
    (liftM x >>= f : Reader ε β) s = f a s := by
  subst h
  rfl

theorem lift_error {x : Except ε α} {e : ε} (h : x = .error e) (f : α → Reader ε β) (s : List ℕ) :
    (liftM x >>= f : Reader ε β) s = .error e := by
  subst h
  rfl

/-- `r` takes the bytes `bs` for the value `a`. -/
def Reads (r : Reader ε α) (bs : List ℕ) (a : α) : Prop := ∀ rest, r (bs ++ rest) = .ok (a, rest)

namespace Reads

variable {r : Reader ε α} {bs cs : List ℕ} {a : α} {b : β}

theorem pure : Reads (pure a : Reader ε α) [] a := fun _ => rfl

theorem pure_eq {a' : α} (h : a' = a) : Reads (Pure.pure a' : Reader ε α) [] a := h ▸ pure

theorem lift {x : Except ε α} (h : x = .ok a) : Reads (liftM x : Reader ε α) [] a := by
  intro rest
  subst h
  rfl

theorem run_bind (h : Reads r bs a) (f : α → Reader ε β) (rest : List ℕ) :
    (r >>= f) (bs ++ rest) = f a rest := by
  change (r (bs ++ rest) >>= fun p => f p.1 p.2) = _
  rw [h]
  rfl

theorem bind {f : α → Reader ε β} (h : Reads r bs a) (hf : Reads (f a) cs b) :
    Reads (r >>= f) (bs ++ cs) b := by
  intro rest
  rw [List.append_assoc, h.run_bind]
  exact hf rest

theorem bind_nil {f : α → Reader ε β} (h : Reads r bs a) (hf : Reads (f a) [] b) :
    Reads (r >>= f) bs b := by
  have hread := h.bind hf
  rwa [List.append_nil] at hread

theorem lift_bind {x : Except ε α} {f : α → Reader ε β} (h : x = .ok a) (hf : Reads (f a) cs b) :
    Reads (liftM x >>= f) cs b := (lift h).bind hf

/-- A loop that reads the elements of a list one after the other; `s k` is the state once `k`
of them are read. -/
theorem loop {body : σ → ℕ → Reader ε σ} {enc : α → List ℕ} (s : ℕ → σ) (xs : List α)
    (h : ∀ k x, xs[k]? = some x → Reads (body (s k) k) (enc x) (s (k + 1))) :
    Reads ((List.range xs.length).foldlM body (s 0)) (xs.flatMap enc) (s xs.length) := by
  induction xs using List.reverseRecOn with
  | nil => exact pure
  | append_singleton xs x ih =>
    have hx : (xs ++ [x])[xs.length]? = some x := List.getElem?_concat_length
    have hinit := ih fun k y hy =>
      h k y ((List.getElem?_append_left (List.getElem?_eq_some_iff.mp hy).1).trans hy)
    rw [List.length_append, List.length_singleton, List.range_succ, List.foldlM_append,
      List.flatMap_append]
    refine hinit.bind ?_
    rw [List.foldlM_cons, List.flatMap_singleton]
    have hlast := (h xs.length x hx).bind (pure (ε := ε) (a := s (xs.length + 1)))
    rwa [List.append_nil] at hlast

theorem collect (body : σ → ℕ → Reader ε σ) (enc : α → List ℕ) (put : List α → σ) {xs : List α}
    (h : ∀ k acc, ∀ x ∈ xs, Reads (body (put acc) k) (enc x) (put (acc ++ [x]))) :
    Reads ((List.range xs.length).foldlM body (put [])) (xs.flatMap enc) (put xs) := by
  have hturn : ∀ k x, xs[k]? = some x →
      Reads (body (put (xs.take k)) k) (enc x) (put (xs.take (k + 1))) := by
    intro k x hx
    have htake : xs.take (k + 1) = xs.take k ++ [x] := by simp [List.take_add_one, hx]
    rw [htake]
    exact h k (xs.take k) x (List.mem_of_getElem? hx)
  have hloop := loop (fun k => put (xs.take k)) xs hturn
  rwa [List.take_length] at hloop

end Reads

/-- What is true of every value that `r` returns. -/
def Returns (r : Reader ε α) (P : α → Prop) : Prop := ∀ s a s', r s = .ok (a, s') → P a

namespace Returns

variable {r : Reader ε α} {P : α → Prop} {Q : β → Prop}

theorem any : Returns r fun _ => True := fun _ _ _ _ => trivial

theorem pure {a : α} (h : P a) : Returns (pure a : Reader ε α) P := by
  intro s b s' hr
  obtain ⟨rfl, -⟩ := Prod.mk.inj (Except.ok.inj hr)
  exact h

theorem lift {x : Except ε α} (h : ∀ a, x = .ok a → P a) : Returns (liftM x : Reader ε α) P := by
  intro s b s' hr
  cases x with
  | error e => cases hr
  | ok a =>
    obtain ⟨rfl, -⟩ := Prod.mk.inj (Except.ok.inj hr)
    exact h a rfl

theorem bind {f : α → Reader ε β} (h : Returns r P) (hf : ∀ a, P a → Returns (f a) Q) :
    Returns (r >>= f) Q := by
  intro s b s' hr
  change (r s >>= fun p => f p.1 p.2) = _ at hr
  cases hs : r s with
  | error e =>
    rw [hs] at hr
    cases hr
  | ok p =>
    rw [hs] at hr
    exact hf p.1 (h s p.1 p.2 hs) p.2 b s' hr

theorem loop {body : σ → ℕ → Reader ε σ} (I : ℕ → σ → Prop) {n : ℕ} {s : σ}
    (step : ∀ k < n, ∀ s, I k s → Returns (body s k) (I (k + 1))) (h : I 0 s) :
    Returns ((List.range n).foldlM body s) (I n) := by
  induction n with
  | zero => exact pure h
  | succ n ih =>
    rw [List.range_succ, List.foldlM_append]
    refine (ih fun k hk => step k (Nat.lt_succ_of_lt hk)).bind fun t ht => ?_
    rw [List.foldlM_cons]
    exact (step n (Nat.lt_succ_self n) t ht).bind fun u hu => pure hu

end Returns

end Codec
