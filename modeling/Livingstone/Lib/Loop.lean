import Mathlib.Tactic

/-! Loops over an error monad: `foldlM` over a list with an invariant on what is
left of it, and a `while` loop run under a bound. `whileM` returns `outOfFuel`
when the bound is reached, so that a result different from it is a result of
the unbounded loop. -/

namespace Loop

universe u

variable {σ α ρ ε : Type*}

theorem bind_eq_ok {α β : Type u} {x : Except ε α} {f : α → Except ε β} {r : β}
    (h : x >>= f = .ok r) : ∃ a, x = .ok a ∧ f a = .ok r := by
  cases x with
  | error e => cases h
  | ok a => exact ⟨a, rfl, h⟩

theorem foldlM_rest {f : σ → α → Except ε σ} (I : List α → σ → Prop)
    (step : ∀ a l s, I (a :: l) s → ∃ s', f s a = .ok s' ∧ I l s') (l : List α) (s : σ)
    (h : I l s) : ∃ s', l.foldlM f s = .ok s' ∧ I [] s' := by
  induction l generalizing s with
  | nil => exact ⟨s, rfl, h⟩
  | cons a l ih =>
    obtain ⟨s₁, h₁, hI⟩ := step a l s h
    obtain ⟨s₂, h₂, hI₂⟩ := ih s₁ hI
    refine ⟨s₂, ?_, hI₂⟩
    simp only [List.foldlM_cons, h₁]
    exact h₂

theorem foldlM_left {f : σ → α → Except ε σ} (I : List α → σ → Prop)
    (step : ∀ a l s s', I (a :: l) s → f s a = .ok s' → I l s') {l : List α} {s s' : σ}
    (h : I l s) (hf : l.foldlM f s = .ok s') : I [] s' := by
  induction l generalizing s with
  | nil => exact Except.ok.inj hf ▸ h
  | cons a l ih =>
    rw [List.foldlM_cons] at hf
    obtain ⟨s₁, h₁, hf⟩ := bind_eq_ok hf
    exact ih (step a l s s₁ h h₁) hf

theorem foldl_left {f : σ → α → σ} (I : List α → σ → Prop)
    (step : ∀ a l s, I (a :: l) s → I l (f s a)) {l : List α} {s : σ} (h : I l s) :
    I [] (l.foldl f s) := by
  induction l generalizing s with
  | nil => exact h
  | cons a l ih => exact ih (step a l s h)

theorem foldlM_inv {f : σ → α → Except ε σ} (I : σ → Prop) (l : List α)
    (step : ∀ a ∈ l, ∀ s s', I s → f s a = .ok s' → I s') {s s' : σ}
    (h : I s) (hf : l.foldlM f s = .ok s') : I s' := by
  refine (foldlM_left (fun rest s => (∀ a ∈ rest, a ∈ l) ∧ I s) ?_ ⟨fun _ ha => ha, h⟩ hf).2
  intro a rest s s' ⟨hrest, hI⟩ hs
  rw [List.forall_mem_cons] at hrest
  exact ⟨hrest.2, step a hrest.1 s s' hI hs⟩

/-- A loop that returned, whose invariant mentions the elements already visited. -/
theorem foldlM_visited {f : σ → α → Except ε σ} (I : List α → σ → Prop) (l : List α)
    (step : ∀ done, ∀ a ∈ l, ∀ s s', I done s → f s a = .ok s' → I (done ++ [a]) s') {s s' : σ}
    (h : I [] s) (hf : l.foldlM f s = .ok s') : I l s' := by
  suffices hall : ∀ done rest s, done ++ rest = l → I done s → rest.foldlM f s = .ok s' → I l s' from
    hall [] l s rfl h hf
  intro done rest
  induction rest generalizing done with
  | nil =>
    intro s hl hI hf
    obtain rfl := Except.ok.inj hf
    exact hl ▸ (List.append_nil done).symm ▸ hI
  | cons a rest ih =>
    intro s hl hI hf
    rw [List.foldlM_cons] at hf
    obtain ⟨s₁, h₁, hf⟩ := bind_eq_ok hf
    have ha : a ∈ l := hl ▸ List.mem_append_right _ List.mem_cons_self
    exact ih (done ++ [a]) s₁ (by simpa using hl) (step done a ha s s₁ hI h₁) hf

theorem foldl_visited {f : σ → α → σ} (I : List α → σ → Prop) (l : List α)
    (step : ∀ done, ∀ a ∈ l, ∀ s, I done s → I (done ++ [a]) (f s a)) {s : σ} (h : I [] s) :
    I l (l.foldl f s) := by
  suffices hall : ∀ done rest s, done ++ rest = l → I done s → I l (rest.foldl f s) from
    hall [] l s rfl h
  intro done rest
  induction rest generalizing done with
  | nil =>
    intro s hl hI
    exact hl ▸ (List.append_nil done).symm ▸ hI
  | cons a rest ih =>
    intro s hl hI
    have ha : a ∈ l := hl ▸ List.mem_append_right _ List.mem_cons_self
    exact ih (done ++ [a]) (f s a) (by simpa using hl) (step done a ha s hI)

theorem foldlM_range {f : σ → ℕ → Except ε σ} (I : ℕ → σ → Prop) {n : ℕ}
    (step : ∀ k < n, ∀ s, I k s → ∃ s', f s k = .ok s' ∧ I (k + 1) s') {s : σ} (h : I 0 s) :
    ∃ s', (List.range n).foldlM f s = .ok s' ∧ I n s' := by
  induction n with
  | zero => exact ⟨s, rfl, h⟩
  | succ n ih =>
    obtain ⟨s₁, h₁, hI⟩ := ih fun k hk => step k (Nat.lt_succ_of_lt hk)
    obtain ⟨s₂, h₂, hI₂⟩ := step n (Nat.lt_succ_self n) s₁ hI
    refine ⟨s₂, ?_, hI₂⟩
    rw [List.range_succ, List.foldlM_append, h₁]
    simp [bind, Except.bind, h₂, pure, Except.pure]

theorem foldlM_congr {f g : σ → α → Except ε σ} {l : List α}
    (h : ∀ s, ∀ a ∈ l, f s a = g s a) (s : σ) : l.foldlM f s = l.foldlM g s := by
  induction l generalizing s with
  | nil => rfl
  | cons a l ih =>
    rw [List.foldlM_cons, List.foldlM_cons, h s a List.mem_cons_self]
    exact bind_congr fun s' => ih (fun t b hb => h t b (List.mem_cons_of_mem a hb)) s'

theorem foldlM_skip {f : σ → α → Except ε σ} {l : List α} {s : σ} (h : ∀ b ∈ l, f s b = .ok s) :
    l.foldlM f s = .ok s := by
  induction l with
  | nil => rfl
  | cons b l ih =>
    simp only [List.foldlM_cons, h b List.mem_cons_self]
    exact ih fun x hx => h x (List.mem_cons_of_mem _ hx)

theorem foldlM_once {f : σ → α → Except ε σ} {l : List α} {a : α} {s : σ} (hn : l.Nodup)
    (ha : a ∈ l) (hs : ∀ b ∈ l, b ≠ a → f s b = .ok s)
    (hs' : ∀ s', f s a = .ok s' → ∀ b ∈ l, b ≠ a → f s' b = .ok s') :
    l.foldlM f s = f s a := by
  induction l with
  | nil => cases ha
  | cons b l ih =>
    obtain ⟨hb, hn⟩ := List.nodup_cons.mp hn
    rw [List.foldlM_cons]
    by_cases hba : b = a
    · subst hba
      have hne (x : α) (hx : x ∈ l) : x ≠ b := by
        rintro rfl
        exact hb hx
      cases h : f s b with
      | error e => rfl
      | ok s' =>
        exact foldlM_skip fun x hx => hs' s' h x (List.mem_cons_of_mem _ hx) (hne x hx)
    · have ha := List.mem_of_ne_of_mem (Ne.symm hba) ha
      rw [hs b List.mem_cons_self hba]
      exact ih hn ha (fun x hx => hs x (List.mem_cons_of_mem _ hx))
        (fun s' h x hx => hs' s' h x (List.mem_cons_of_mem _ hx))

/-- A `for` loop that appends to a list and leaves the rest of the state as it was. -/
theorem foldlM_collect {β : Type*} {f : List β × σ → α → Except ε (List β × σ)} {s : σ}
    {R : α → β → Prop} {l : List α}
    (step : ∀ a ∈ l, ∀ acc, ∃ new, f (acc, s) a = .ok (acc ++ new, s) ∧ ∀ p, p ∈ new ↔ R a p)
    (acc : List β) :
    ∃ new, l.foldlM f (acc, s) = .ok (acc ++ new, s) ∧ ∀ p, p ∈ new ↔ ∃ a ∈ l, R a p := by
  induction l generalizing acc with
  | nil => exact ⟨[], by simp [pure, Except.pure], by simp⟩
  | cons a l ih =>
    obtain ⟨new, h₁, hR⟩ := step a List.mem_cons_self acc
    obtain ⟨new', h₂, hR'⟩ := ih (fun b hb => step b (List.mem_cons_of_mem _ hb)) (acc ++ new)
    refine ⟨new ++ new', ?_, fun p => ?_⟩
    · rw [List.foldlM_cons, h₁, ← List.append_assoc]
      exact h₂
    · rw [List.mem_append, hR, hR', List.exists_mem_cons_iff]

theorem mapM_total {α β : Type u} {g : α → Except ε β} {l : List α}
    (h : ∀ a ∈ l, ∃ b, g a = .ok b) : ∃ bs, l.mapM g = .ok bs := by
  induction l with
  | nil => exact ⟨[], rfl⟩
  | cons a l ih =>
    obtain ⟨b, hb⟩ := h a List.mem_cons_self
    obtain ⟨bs, hbs⟩ := ih fun x hx => h x (List.mem_cons_of_mem _ hx)
    exact ⟨b :: bs, by simp [List.mapM_cons, hb, hbs, bind, Except.bind, pure, Except.pure]⟩

theorem mapM_eq_map {α β : Type u} {g : α → Except ε β} {f : α → β} {l : List α}
    (h : ∀ a ∈ l, g a = .ok (f a)) : l.mapM g = .ok (l.map f) := by
  induction l with
  | nil => rfl
  | cons a l ih =>
    rw [List.mapM_cons, h a List.mem_cons_self, ih fun b hb => h b (List.mem_cons_of_mem a hb)]
    rfl

theorem mapM_forall₂ {α β : Type u} {g : α → Except ε β} {l : List α} {bs : List β}
    (h : l.mapM g = .ok bs) : List.Forall₂ (fun a b => g a = .ok b) l bs := by
  induction l generalizing bs with
  | nil =>
    obtain rfl := Except.ok.inj h
    exact List.Forall₂.nil
  | cons a l ih =>
    rw [List.mapM_cons] at h
    obtain ⟨b, hb, h⟩ := bind_eq_ok h
    obtain ⟨bs', hbs, h⟩ := bind_eq_ok h
    obtain rfl := Except.ok.inj h
    exact List.Forall₂.cons hb (ih hbs)

theorem mem_mapM {α β : Type u} {g : α → Except ε β} {l : List α} {bs : List β}
    (h : l.mapM g = .ok bs) (b : β) : b ∈ bs ↔ ∃ a ∈ l, g a = .ok b := by
  have hall := mapM_forall₂ h
  clear h
  induction hall with
  | nil => simp
  | cons hab _ ih =>
    rw [List.mem_cons, List.exists_mem_cons_iff]
    exact or_congr (by rw [hab, Except.ok.injEq, eq_comm]) ih

/-- `x` returns if and only if `room` holds, and then with a result in `R`. -/
def ReturnsIff (x : Except ε σ) (room : Prop) (R : σ → Prop) : Prop :=
  match x with
  | .ok s => room ∧ R s
  | .error _ => ¬ room

namespace ReturnsIff

theorem returns {x : Except ε σ} {room : Prop} {R : σ → Prop} (h : ReturnsIff x room R)
    (hroom : room) : ∃ s, x = .ok s ∧ R s := by
  cases x with
  | error e => exact absurd hroom h
  | ok s => exact ⟨s, rfl, h.2⟩

theorem of_eq {x : Except ε σ} {room : Prop} {R : σ → Prop} {s : σ} (h : ReturnsIff x room R)
    (hs : x = .ok s) : room ∧ R s := by
  subst hs
  exact h

theorem congr {x : Except ε σ} {room room' : Prop} {R R' : σ → Prop} (h : ReturnsIff x room R)
    (hroom : room ↔ room') (hR : ∀ s, room → R s → R' s) : ReturnsIff x room' R' := by
  cases x with
  | error e => exact mt hroom.mpr h
  | ok s => exact ⟨hroom.mp h.1, hR s h.1 h.2⟩

theorem bind {x : Except ε σ} {f : σ → Except ε σ} {room room' : Prop} {R R' : σ → Prop}
    (h : ReturnsIff x room R) (hf : ∀ s, room → R s → ReturnsIff (f s) room' R') :
    ReturnsIff (x >>= f) (room ∧ room') R' := by
  cases x with
  | error e => exact fun hr => h hr.1
  | ok s =>
    have hs := hf s h.1 h.2
    change ReturnsIff (f s) _ _
    revert hs
    cases f s with
    | error e => exact fun hs hr => hs hr.2
    | ok s' => exact fun hs => ⟨⟨h.1, hs.1⟩, hs.2⟩

/-- A loop over numbered elements returns if and only if each of its turns has room. -/
theorem foldlM_zipIdx {f : σ → α × ℕ → Except ε σ} (room : α → Prop) (I : ℕ → σ → Prop)
    (l : List α) (n : ℕ)
    (step : ∀ k a, l[k]? = some a → ∀ s, I (n + k) s →
      ReturnsIff (f s (a, n + k)) (room a) (I (n + k + 1))) {s : σ} (h : I n s) :
    ReturnsIff ((l.zipIdx n).foldlM f s) (∀ a ∈ l, room a) (I (n + l.length)) := by
  induction l generalizing n s with
  | nil => exact ⟨fun a ha => absurd ha List.not_mem_nil, h⟩
  | cons a l ih =>
    rw [List.zipIdx_cons, List.foldlM_cons]
    refine ((step 0 a rfl s h).bind fun s' _ hs' => ih (n + 1) (fun k b hb t ht => ?_) hs').congr
      List.forall_mem_cons.symm fun s' _ hs' => ?_
    · have hstep := step (k + 1) b hb t
      rw [show n + (k + 1) = n + 1 + k by omega] at hstep
      exact hstep ht
    · rw [List.length_cons, show n + (l.length + 1) = n + 1 + l.length by omega]
      exact hs'

end ReturnsIff

/-- `while` with a body that either goes on with a new state or returns. -/
def whileM (outOfFuel : ε) (body : σ → Except ε (σ ⊕ ρ)) : ℕ → σ → Except ε ρ
  | 0, _ => .error outOfFuel
  | n + 1, s =>
    match body s with
    | .error e => .error e
    | .ok (.inl s') => whileM outOfFuel body n s'
    | .ok (.inr r) => .ok r

section
variable (outOfFuel : ε) (body : σ → Except ε (σ ⊕ ρ))

theorem whileM_inl {n : ℕ} {s s' : σ} (h : body s = .ok (.inl s')) :
    whileM outOfFuel body (n + 1) s = whileM outOfFuel body n s' := by
  simp [whileM, h]

theorem whileM_inr {n : ℕ} {s : σ} {r : ρ} (h : body s = .ok (.inr r)) :
    whileM outOfFuel body (n + 1) s = .ok r := by
  simp [whileM, h]

/-- Total correctness: the invariant is kept, the measure drops at each turn and
bounds the number of turns. -/
theorem whileM_total (I : σ → Prop) (μ : σ → ℕ) (Q : ρ → Prop)
    (step : ∀ s, I s → (∃ s', body s = .ok (.inl s') ∧ I s' ∧ μ s' < μ s) ∨
      ∃ r, body s = .ok (.inr r) ∧ Q r)
    (n : ℕ) (s : σ) (h : I s) (hn : μ s < n) :
    ∃ r, whileM outOfFuel body n s = .ok r ∧ Q r := by
  induction n generalizing s with
  | zero => omega
  | succ n ih =>
    rcases step s h with ⟨s', hb, hI, hμ⟩ | ⟨r, hb, hQ⟩
    · rw [whileM_inl outOfFuel body hb]
      exact ih s' hI (by omega)
    · exact ⟨r, whileM_inr outOfFuel body hb, hQ⟩

theorem whileM_inv (I : σ → Prop) (Q : ρ → Prop)
    (hinl : ∀ s s', I s → body s = .ok (.inl s') → I s')
    (hinr : ∀ s r, I s → body s = .ok (.inr r) → Q r) {n : ℕ} {s : σ} {r : ρ} (h : I s)
    (hr : whileM outOfFuel body n s = .ok r) : Q r := by
  induction n generalizing s with
  | zero => cases hr
  | succ n ih =>
    cases hb : body s with
    | error e => simp [whileM, hb] at hr
    | ok x =>
      cases x with
      | inl s' =>
        rw [whileM_inl outOfFuel body hb] at hr
        exact ih (hinl s s' h hb) hr
      | inr r' =>
        rw [whileM_inr outOfFuel body hb] at hr
        exact Except.ok.inj hr ▸ hinr s r' h hb

end

/-- `s'` is reached by `k` steps of `f`, none of them taken from a state that is to stop. -/
structure StepsTo (f : σ → σ) (stop : σ → Prop) (s : σ) (k : ℕ) (s' : σ) : Prop where
  eq : s' = f^[k] s
  running : ∀ j < k, ¬ stop (f^[j] s)

namespace StepsTo

variable {f : σ → σ} {stop : σ → Prop} {s s' : σ} {k : ℕ}

theorem refl (f : σ → σ) (stop : σ → Prop) (s : σ) : StepsTo f stop s 0 s where
  eq := rfl
  running j hj := absurd hj (Nat.not_lt_zero j)

theorem step (h : StepsTo f stop s k s') (hs : ¬ stop s') : StepsTo f stop s (k + 1) (f s') where
  eq := by rw [Function.iterate_succ_apply', ← h.eq]
  running j hj := by
    rcases Nat.lt_succ_iff_lt_or_eq.mp hj with hj | rfl
    · exact h.running j hj
    · exact h.eq ▸ hs

theorem le {K : ℕ} (h : StepsTo f stop s k s') (hK : stop (f^[K] s)) : k ≤ K := by
  by_contra hlt
  exact h.running K (by omega) hK

theorem inv (I : ℕ → σ → Prop) (h₀ : I 0 s) (hstep : ∀ k s, I k s → ¬ stop s → I (k + 1) (f s))
    (h : StepsTo f stop s k s') : I k s' := by
  obtain ⟨rfl, hrun⟩ := h
  induction k with
  | zero => exact h₀
  | succ k ih =>
    rw [Function.iterate_succ_apply']
    exact hstep k _ (ih fun j hj => hrun j (by omega)) (hrun k (by omega))

theorem exists_first (h : ∃ k, stop (f^[k] s)) :
    ∃ k s', StepsTo f stop s k s' ∧ stop s' := by
  classical
  exact ⟨Nat.find h, _, ⟨rfl, fun j hj => Nat.find_min h hj⟩, Nat.find_spec h⟩

end StepsTo

end Loop
