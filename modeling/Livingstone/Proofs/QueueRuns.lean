import Livingstone.Realtime.Queue

/-! Runs of the realtime queue: the messages are parsed once each and in order, and what the
counters and `is_done_empty` say about the threads. -/

namespace Livingstone
namespace Realtime

namespace Thread

def isTimer : Thread → Bool
  | .adding timer _ _ => timer
  | .sleeping => true
  | .decrementing => true
  | _ => false

/-- A client that has created a timer and has not counted it. -/
def isCounting : Thread → Bool
  | .counting _ => true
  | _ => false

def critical : Thread → Bool
  | .adding _ _ .check => true
  | .adding _ _ .release => true
  | .done (.check _) => true
  | .done (.release _) => true
  | _ => false

@[simp]
theorem isTimer_wakeNotFull (t : Thread) : t.wakeNotFull.isTimer = t.isTimer := by
  unfold wakeNotFull
  split <;> rfl

@[simp]
theorem isTimer_wakeIsEmpty (t : Thread) : t.wakeIsEmpty.isTimer = t.isTimer := by
  unfold wakeIsEmpty
  split <;> rfl

@[simp]
theorem isCounting_wakeNotFull (t : Thread) : t.wakeNotFull.isCounting = t.isCounting := by
  unfold wakeNotFull
  split <;> rfl

@[simp]
theorem isCounting_wakeIsEmpty (t : Thread) : t.wakeIsEmpty.isCounting = t.isCounting := by
  unfold wakeIsEmpty
  split <;> rfl

@[simp]
theorem critical_wakeNotFull (t : Thread) : t.wakeNotFull.critical = t.critical := by
  unfold wakeNotFull
  split <;> rfl

@[simp]
theorem critical_wakeIsEmpty (t : Thread) : t.wakeIsEmpty.critical = t.critical := by
  unfold wakeIsEmpty
  split <;> rfl

theorem wakeNotFull_eq_release {t : Thread} {second : Bool} :
    t.wakeNotFull = .done (.release second) ↔ t = .done (.release second) := by
  unfold wakeNotFull
  split <;> simp

theorem wakeIsEmpty_eq_release {t : Thread} {second : Bool} :
    t.wakeIsEmpty = .done (.release second) ↔ t = .done (.release second) := by
  unfold wakeIsEmpty
  split <;> simp

end Thread

namespace Dispatcher

def critical : Dispatcher → Bool
  | .first => true
  | .again => true
  | .release _ => true
  | _ => false

/-- The message that has been taken off the queue and not been parsed. -/
def held : Dispatcher → List LivingstoneMessage
  | .release msg => [msg]
  | .parsing msg => [msg]
  | _ => []

@[simp]
theorem critical_wakeNotEmpty (d : Dispatcher) : d.wakeNotEmpty.critical = d.critical := by
  unfold wakeNotEmpty
  split <;> rfl

@[simp]
theorem held_wakeNotEmpty (d : Dispatcher) : d.wakeNotEmpty.held = d.held := by
  unfold wakeNotEmpty
  split <;> rfl

end Dispatcher

/-- The messages pushed are those parsed, one that the dispatcher holds, and those on the queue, and
the counter counts the queue. -/
structure Fifo (s : State) : Prop where
  pushed_eq : s.pushed = s.parsed ++ s.dispatcher.held ++ s.messages
  count_eq : s.messagesInQueue = s.messages.length
  count_le : s.messagesInQueue ≤ maxMsgs

/-- Who has the mutex, and what is so while a thread has it. -/
structure Exclusive (s : State) : Prop where
  thread : ∀ i : ℕ, (∃ t, s.threads[i]? = some t ∧ t.critical = true) ↔
    s.queueItemsMutex = some (.thread i)
  dispatcher : s.dispatcher.critical = true ↔ s.queueItemsMutex = some .dispatcher
  empty : ∀ (i : ℕ) (second : Bool), s.threads[i]? = some (Thread.done (.release second)) →
    s.messagesInQueue = 0

/-- The timers that have not finished are those counted and those about to be counted. -/
def Counted (s : State) : Prop :=
  s.timeoutHandlers + s.threads.countP Thread.isCounting = s.threads.countP Thread.isTimer

structure Inv (s : State) : Prop where
  fifo : Fifo s
  exclusive : Exclusive s
  counted : Counted s

theorem inv_init : Inv {} where
  fifo := ⟨rfl, rfl, Nat.zero_le _⟩
  exclusive := ⟨fun i => by simp, by simp [Dispatcher.critical], fun i second h => by simp at h⟩
  counted := rfl

theorem countP_put (p : Thread → Bool) {l : List Thread} {i : ℕ} {t : Thread} (t' : Thread)
    (hi : l[i]? = some t) :
    (l.set i t').countP p + (if p t then 1 else 0) = l.countP p + if p t' then 1 else 0 := by
  induction l generalizing i with
  | nil => simp at hi
  | cons a l ih =>
    cases i with
    | zero =>
      obtain rfl := Option.some.inj hi
      simp only [List.set_cons_zero, List.countP_cons]
      omega
    | succ i =>
      have htail := ih hi
      simp only [List.set_cons_succ, List.countP_cons]
      omega

theorem countP_wake (p : Thread → Bool) {wake : Thread → Thread} (hwake : ∀ t, p (wake t) = p t)
    (l : List Thread) : (l.map wake).countP p = l.countP p := by
  rw [List.countP_map]
  congr 1
  funext t
  exact hwake t

theorem Counted.put {s s' : State} (h : Counted s) {i : ℕ} {t t' : Thread}
    (hi : s.threads[i]? = some t) (hthreads : s'.threads = s.threads.set i t')
    (htimeouts : s'.timeoutHandlers + (if t'.isCounting then 1 else 0) +
        (if t.isTimer then 1 else 0) =
      s.timeoutHandlers + (if t.isCounting then 1 else 0) + if t'.isTimer then 1 else 0) :
    Counted s' := by
  have hcounting := countP_put Thread.isCounting t' hi
  have htimer := countP_put Thread.isTimer t' hi
  unfold Counted at h ⊢
  rw [hthreads]
  split_ifs at htimeouts hcounting htimer <;> omega

theorem Exclusive.put {s s' : State} (h : Exclusive s) {i : ℕ} {t t' : Thread}
    (hi : s.threads[i]? = some t) (hthreads : s'.threads = s.threads.set i t')
    (hown : t'.critical = true ↔ s'.queueItemsMutex = some (.thread i))
    (hothers : ∀ o, o ≠ .thread i →
      (s'.queueItemsMutex = some o ↔ s.queueItemsMutex = some o))
    (hdispatcher : s'.dispatcher.critical = s.dispatcher.critical)
    (hempty : ∀ second, t' = .done (.release second) → s'.messagesInQueue = 0)
    (hcount : s'.messagesInQueue = s.messagesInQueue ∨ t.critical = true) : Exclusive s' where
  thread j := by
    rw [hthreads]
    by_cases hj : j = i
    · subst hj
      rw [List.getElem?_set_self (List.getElem?_eq_some_iff.mp hi).1, ← hown]
      simp
    · rw [List.getElem?_set_ne (Ne.symm hj), h.thread j, hothers _ fun heq => hj (by cases heq; rfl)]
  dispatcher := by
    rw [hdispatcher, h.dispatcher, hothers _ (by simp)]
  empty j second hj := by
    rw [hthreads] at hj
    by_cases hji : j = i
    · subst hji
      rw [List.getElem?_set_self (List.getElem?_eq_some_iff.mp hi).1] at hj
      exact hempty second (Option.some.inj hj)
    · rw [List.getElem?_set_ne (Ne.symm hji)] at hj
      cases hcount with
      | inl hcount => rw [hcount, h.empty j second hj]
      | inr hcritical =>
        -- A thread that may change the counter has the mutex, and so has the other.
        have hmine := (h.thread i).mp ⟨t, hi, hcritical⟩
        have hother := (h.thread j).mp ⟨_, hj, rfl⟩
        rw [hmine] at hother
        cases hother
        exact absurd rfl hji

theorem Exclusive.others {s : State} (h : Exclusive s) {i : ℕ} {t : Thread}
    (hi : s.threads[i]? = some t) (hcritical : t.critical = true) :
    s.queueItemsMutex = some (.thread i) := (h.thread i).mp ⟨t, hi, hcritical⟩

theorem Fifo.same {s s' : State} (h : Fifo s) (hpushed : s'.pushed = s.pushed)
    (hparsed : s'.parsed = s.parsed) (hheld : s'.dispatcher.held = s.dispatcher.held)
    (hmessages : s'.messages = s.messages) (hcount : s'.messagesInQueue = s.messagesInQueue) :
    Fifo s' where
  pushed_eq := by rw [hpushed, hparsed, hheld, hmessages, h.pushed_eq]
  count_eq := by rw [hcount, hmessages, h.count_eq]
  count_le := by rw [hcount]; exact h.count_le

theorem Fifo.push {s : State} (h : Fifo s) (hroom : s.messagesInQueue ≠ maxMsgs)
    (msg : LivingstoneMessage) : Fifo (s.push msg) where
  pushed_eq := by
    simp only [State.push, Dispatcher.held_wakeNotEmpty]
    rw [h.pushed_eq]
    simp
  count_eq := by
    simp only [State.push, List.length_append, List.length_singleton]
    rw [h.count_eq]
  count_le := lt_of_le_of_ne h.count_le hroom

theorem Exclusive.append {s : State} (h : Exclusive s) {t : Thread} (ht : t.critical = false) :
    Exclusive { s with threads := s.threads ++ [t] } where
  thread j := by
    rw [← h.thread j]
    by_cases hj : j < s.threads.length
    · simp only [List.getElem?_append_left hj]
    · rw [List.getElem?_append_right (by omega), List.getElem?_eq_none (l := s.threads) (by omega)]
      constructor
      · intro ⟨t', ht', hcritical⟩
        have hmem := List.mem_of_getElem? ht'
        rw [List.mem_singleton.mp hmem, ht] at hcritical
        cases hcritical
      · intro ⟨t', ht', _⟩
        cases ht'
  dispatcher := h.dispatcher
  empty j second hj := by
    by_cases hlt : j < s.threads.length
    · exact h.empty j second ((List.getElem?_append_left hlt).symm.trans hj)
    · dsimp only at hj
      rw [List.getElem?_append_right (by omega)] at hj
      have hmem := List.mem_of_getElem? hj
      rw [← List.mem_singleton.mp hmem] at ht
      cases ht

theorem Inv.append {s : State} (h : Inv s) {t : Thread} (ht : t.critical = false)
    (htimer : t.isTimer = false) (hcounting : t.isCounting = false) :
    Inv { s with threads := s.threads ++ [t] } where
  fifo := h.fifo.same rfl rfl rfl rfl rfl
  exclusive := h.exclusive.append ht
  counted := by
    have hcounted := h.counted
    unfold Counted at hcounted ⊢
    simp only [List.countP_append, List.countP_singleton, htimer, hcounting]
    simpa using hcounted

/-- A move of one thread that neither takes nor drops the mutex, and leaves the queue as it is. -/
theorem Inv.move {s s' : State} (h : Inv s) {i : ℕ} {t t' : Thread} (hi : s.threads[i]? = some t)
    (hs' : s' = { s.put i t' with timeoutHandlers := s'.timeoutHandlers })
    (hcritical : t'.critical = t.critical)
    (hempty : ∀ second, t' = .done (.release second) → s.messagesInQueue = 0)
    (htimeouts : s'.timeoutHandlers + (if t'.isCounting then 1 else 0) +
        (if t.isTimer then 1 else 0) =
      s.timeoutHandlers + (if t.isCounting then 1 else 0) + if t'.isTimer then 1 else 0) :
    Inv s' where
  fifo := by
    rw [hs']
    exact h.fifo.same rfl rfl rfl rfl rfl
  exclusive := by
    have hown : t'.critical = true ↔ s.queueItemsMutex = some (.thread i) := by
      rw [hcritical, ← h.exclusive.thread i, hi]
      simp
    rw [hs']
    exact h.exclusive.put hi rfl hown (fun o _ => Iff.rfl) rfl hempty (Or.inl rfl)
  counted := h.counted.put hi (by rw [hs']; rfl) htimeouts

theorem Inv.take {s : State} (h : Inv s) {i : ℕ} {t t' : Thread} (hi : s.threads[i]? = some t)
    (hfree : s.queueItemsMutex = none) (hcritical : t'.critical = true)
    (hempty : ∀ second, t' ≠ .done (.release second)) (hcounting : t'.isCounting = t.isCounting)
    (htimer : t'.isTimer = t.isTimer) : Inv ((s.take (.thread i)).put i t') where
  fifo := h.fifo.same rfl rfl rfl rfl rfl
  exclusive := by
    refine h.exclusive.put hi rfl (iff_of_true hcritical rfl) (fun o ho => ?_) rfl
      (fun second heq => absurd heq (hempty second)) (Or.inl rfl)
    rw [hfree]
    simp [State.put, State.take, Ne.symm ho]
  counted := h.counted.put hi rfl (by rw [hcounting, htimer]; rfl)

theorem Inv.drop {s : State} (h : Inv s) {i : ℕ} {t t' : Thread} (hi : s.threads[i]? = some t)
    (hcritical : t.critical = true) (hcritical' : t'.critical = false)
    (hcounting : t'.isCounting = t.isCounting) (htimer : t'.isTimer = t.isTimer) :
    Inv (s.drop.put i t') where
  fifo := h.fifo.same rfl rfl rfl rfl rfl
  exclusive := by
    have hmine := h.exclusive.others hi hcritical
    refine h.exclusive.put hi rfl (by simp [State.put, State.drop, hcritical']) (fun o ho => ?_) rfl
      (fun second heq => by rw [heq] at hcritical'; cases hcritical') (Or.inl rfl)
    rw [hmine]
    simp [State.put, State.drop, Ne.symm ho]
  counted := h.counted.put hi rfl (by rw [hcounting, htimer]; rfl)

theorem inv_stepThread {s s' : State} (h : Inv s) {i : ℕ} {t : Thread} (hi : s.threads[i]? = some t)
    (hstep : s.stepThread i t = some s') : Inv s' := by
  cases t with
  | adding timer msg point =>
    cases point with
    | lock =>
      rw [State.stepThread] at hstep
      split_ifs at hstep with hfree
      obtain rfl := Option.some.inj hstep
      exact h.take hi hfree rfl (by simp) rfl rfl
    | check =>
      rw [State.stepThread] at hstep
      split_ifs at hstep with hfull
      · obtain rfl := Option.some.inj hstep
        exact h.drop hi rfl rfl rfl rfl
      · obtain rfl := Option.some.inj hstep
        have hmine := h.exclusive.others hi rfl
        exact {
          fifo := (h.fifo.push hfull msg).same rfl rfl rfl rfl rfl
          exclusive := h.exclusive.put hi rfl (iff_of_true rfl hmine) (fun o _ => Iff.rfl)
            (Dispatcher.critical_wakeNotEmpty _) (by simp) (Or.inr rfl)
          counted := h.counted.put hi rfl rfl }
    | waitNotFull => cases hstep
    | release =>
      obtain rfl := Option.some.inj hstep
      cases timer <;> exact h.drop hi rfl rfl rfl rfl
  | creating msg =>
    obtain rfl := Option.some.inj hstep
    have hnot : Thread.critical (.counting msg) = true ↔ s.queueItemsMutex = some (.thread i) := by
      rw [← h.exclusive.thread i, hi]
      simp [Thread.critical]
    have hput : Exclusive (s.put i (.counting msg)) :=
      h.exclusive.put hi rfl hnot (fun o _ => Iff.rfl) rfl (by simp) (Or.inl rfl)
    exact {
      fifo := h.fifo.same rfl rfl rfl rfl rfl
      exclusive := hput.append rfl
      counted := by
        have hcounting := countP_put Thread.isCounting (.counting msg) hi
        have htimer := countP_put Thread.isTimer (.counting msg) hi
        have hcounted := h.counted
        unfold Counted at hcounted ⊢
        simp only [State.put, List.countP_append, List.countP_singleton, Thread.isCounting,
          Thread.isTimer] at hcounting htimer ⊢
        simp at hcounting htimer ⊢
        omega }
  | counting msg =>
    obtain rfl := Option.some.inj hstep
    exact h.move hi rfl rfl (by simp) (by simp [Thread.isCounting, Thread.isTimer])
  | sleeping =>
    obtain rfl := Option.some.inj hstep
    exact h.move hi rfl rfl (by simp) rfl
  | decrementing =>
    obtain rfl := Option.some.inj hstep
    exact h.move hi rfl rfl (by simp) (by simp [Thread.isCounting, Thread.isTimer])
  | done point =>
    cases point with
    | lock second =>
      rw [State.stepThread] at hstep
      split_ifs at hstep with hfree
      obtain rfl := Option.some.inj hstep
      exact h.take hi hfree rfl (by simp) rfl rfl
    | check second =>
      rw [State.stepThread] at hstep
      split_ifs at hstep with hzero
      · obtain rfl := Option.some.inj hstep
        exact h.move hi rfl rfl (fun _ _ => hzero) rfl
      · obtain rfl := Option.some.inj hstep
        exact h.drop hi rfl rfl rfl rfl
    | waitIsEmpty second => cases hstep
    | release second =>
      obtain rfl := Option.some.inj hstep
      cases second <;> exact h.drop hi rfl rfl rfl rfl
    | readTimeouts =>
      obtain rfl := Option.some.inj hstep
      split_ifs <;> exact h.move hi rfl rfl (by simp) rfl
    | undefined => cases hstep
  | ended => cases hstep

theorem Exclusive.dispatch {s s' : State} (h : Exclusive s) (wake : Thread → Thread)
    (hthreads : s'.threads = s.threads.map wake) (hwake : ∀ t, (wake t).critical = t.critical)
    (hrelease : ∀ t second, wake t = .done (.release second) → t = .done (.release second))
    (hothers : ∀ i, s'.queueItemsMutex = some (.thread i) ↔ s.queueItemsMutex = some (.thread i))
    (hown : s'.dispatcher.critical = true ↔ s'.queueItemsMutex = some .dispatcher)
    (hcount : s'.messagesInQueue = s.messagesInQueue ∨ s.queueItemsMutex = some .dispatcher) :
    Exclusive s' where
  thread i := by
    rw [hothers i, ← h.thread i, hthreads, List.getElem?_map]
    cases s.threads[i]? with
    | none => simp
    | some t => simp [hwake]
  dispatcher := hown
  empty i second hi := by
    rw [hthreads, List.getElem?_map, Option.map_eq_some_iff] at hi
    obtain ⟨t, ht, heq⟩ := hi
    rw [hrelease t second heq] at ht
    cases hcount with
    | inl hcount => rw [hcount, h.empty i second ht]
    | inr hmine =>
      have hother := (h.thread i).mp ⟨_, ht, rfl⟩
      rw [hmine] at hother
      cases hother

theorem Counted.wake {s s' : State} (h : Counted s) (wake : Thread → Thread)
    (hthreads : s'.threads = s.threads.map wake) (hcounting : ∀ t, (wake t).isCounting = t.isCounting)
    (htimer : ∀ t, (wake t).isTimer = t.isTimer) (hcount : s'.timeoutHandlers = s.timeoutHandlers) :
    Counted s' := by
  unfold Counted at h ⊢
  rw [hthreads, countP_wake _ hcounting, countP_wake _ htimer, hcount]
  exact h

theorem inv_pop {s s' : State} (h : Inv s) (hmine : s.queueItemsMutex = some .dispatcher)
    (hheld : s.dispatcher.held = []) (hstep : s.pop = some s') : Inv s' := by
  unfold State.pop at hstep
  split at hstep
  · cases hstep
  · next msg messages hmessages =>
    obtain rfl := Option.some.inj hstep
    exact {
      fifo := {
        pushed_eq := by
          rw [h.fifo.pushed_eq, hheld, hmessages]
          simp [Dispatcher.held]
        count_eq := by simp [h.fifo.count_eq, hmessages]
        count_le := (Nat.sub_le _ _).trans h.fifo.count_le }
      exclusive := h.exclusive.dispatch Thread.wakeNotFull rfl Thread.critical_wakeNotFull
        (fun t second => Thread.wakeNotFull_eq_release.mp) (fun i => Iff.rfl)
        (iff_of_true rfl hmine) (Or.inr hmine)
      counted := h.counted.wake Thread.wakeNotFull rfl Thread.isCounting_wakeNotFull
        Thread.isTimer_wakeNotFull rfl }

/-- The dispatcher goes from one point to another with the same message in hand. -/
theorem Inv.dispatch {s s' : State} (h : Inv s) (wake : Thread → Thread)
    (hs' : s' = { s with
      dispatcher := s'.dispatcher
      threads := s.threads.map wake
      queueItemsMutex := s'.queueItemsMutex })
    (hheld : s'.dispatcher.held = s.dispatcher.held)
    (hwake : ∀ t, (wake t).critical = t.critical)
    (hrelease : ∀ t second, wake t = .done (.release second) → t = .done (.release second))
    (hcounting : ∀ t, (wake t).isCounting = t.isCounting) (htimer : ∀ t, (wake t).isTimer = t.isTimer)
    (hothers : ∀ i, s'.queueItemsMutex = some (.thread i) ↔ s.queueItemsMutex = some (.thread i))
    (hown : s'.dispatcher.critical = true ↔ s'.queueItemsMutex = some .dispatcher) : Inv s' where
  fifo := h.fifo.same (by rw [hs']) (by rw [hs']) hheld (by rw [hs']) (by rw [hs'])
  exclusive := h.exclusive.dispatch wake (by rw [hs']) hwake hrelease hothers hown
    (Or.inl (by rw [hs']))
  counted := h.counted.wake wake (by rw [hs']) hcounting htimer (by rw [hs'])

theorem inv_stepDispatcher {s s' : State} (h : Inv s) (hstep : s.stepDispatcher = some s') :
    Inv s' := by
  unfold State.stepDispatcher at hstep
  have hown := h.exclusive.dispatcher
  split at hstep
  · next hpoint =>
    split_ifs at hstep with hfree
    obtain rfl := Option.some.inj hstep
    exact h.dispatch id (by simp [State.take]) (by rw [hpoint]; rfl) (fun _ => rfl)
      (fun _ _ => id) (fun _ => rfl) (fun _ => rfl) (by simp [State.take, hfree])
      (iff_of_true rfl rfl)
  · next hpoint =>
    have hmine := hown.mp (by rw [hpoint]; rfl)
    split_ifs at hstep with hzero
    · obtain rfl := Option.some.inj hstep
      exact h.dispatch Thread.wakeIsEmpty rfl (by rw [hpoint]; rfl) Thread.critical_wakeIsEmpty
        (fun t second => Thread.wakeIsEmpty_eq_release.mp) Thread.isCounting_wakeIsEmpty
        Thread.isTimer_wakeIsEmpty (by simp [State.drop, hmine])
        (by simp [State.drop, Dispatcher.critical])
    · exact inv_pop h hmine (by rw [hpoint]; rfl) hstep
  · cases hstep
  · next hpoint =>
    split_ifs at hstep with hfree
    obtain rfl := Option.some.inj hstep
    exact h.dispatch id (by simp [State.take]) (by rw [hpoint]; rfl) (fun _ => rfl)
      (fun _ _ => id) (fun _ => rfl) (fun _ => rfl) (by simp [State.take, hfree])
      (iff_of_true rfl rfl)
  · next hpoint =>
    have hmine := hown.mp (by rw [hpoint]; rfl)
    split_ifs at hstep with hzero
    · obtain rfl := Option.some.inj hstep
      exact h.dispatch id (by simp [State.drop]) (by rw [hpoint]; rfl) (fun _ => rfl)
        (fun _ _ => id) (fun _ => rfl) (fun _ => rfl) (by simp [State.drop, hmine])
        (by simp [State.drop, Dispatcher.critical])
    · exact inv_pop h hmine (by rw [hpoint]; rfl) hstep
  · next msg hpoint =>
    have hmine := hown.mp (by rw [hpoint]; rfl)
    obtain rfl := Option.some.inj hstep
    exact h.dispatch id (by simp [State.drop]) (by rw [hpoint]; rfl) (fun _ => rfl)
      (fun _ _ => id) (fun _ => rfl) (fun _ => rfl) (by simp [State.drop, hmine])
      (by simp [State.drop, Dispatcher.critical])
  · next msg hpoint =>
    have hfree : s.queueItemsMutex ≠ some .dispatcher := by
      rw [ne_eq, ← hown, hpoint]
      simp [Dispatcher.critical]
    obtain rfl := Option.some.inj hstep
    exact {
      fifo := {
        pushed_eq := by simp [h.fifo.pushed_eq, hpoint, Dispatcher.held]
        count_eq := h.fifo.count_eq
        count_le := h.fifo.count_le }
      exclusive := h.exclusive.dispatch id (by simp) (fun _ => rfl) (fun _ _ => id)
        (fun i => Iff.rfl) (iff_of_false (by simp [Dispatcher.critical]) hfree) (Or.inl rfl)
      counted := h.counted }

theorem inv_step {s s' : State} (h : Inv s) {a : Action} (hstep : s.step a = some s') : Inv s' := by
  cases a with
  | call c =>
    obtain rfl := Option.some.inj hstep
    cases c <;> exact h.append rfl rfl rfl
  | thread i =>
    obtain ⟨t, hi, hstep⟩ := Option.bind_eq_some_iff.mp hstep
    exact inv_stepThread h hi hstep
  | wake i =>
    obtain ⟨t, hi, rfl⟩ := Option.map_eq_some_iff.mp hstep
    refine h.move hi rfl (by simp) (fun second heq => ?_) (by simp [State.put])
    rw [Thread.wakeIsEmpty_eq_release, Thread.wakeNotFull_eq_release] at heq
    rw [heq] at hi
    exact h.exclusive.empty i second hi
  | dispatcher => exact inv_stepDispatcher h hstep
  | wakeDispatcher =>
    obtain rfl := Option.some.inj hstep
    exact h.dispatch id (by simp) (Dispatcher.held_wakeNotEmpty _) (fun _ => rfl) (fun _ _ => id)
      (fun _ => rfl) (fun _ => rfl) (fun _ => Iff.rfl)
      (by rw [Dispatcher.critical_wakeNotEmpty]; exact h.exclusive.dispatcher)

/-- The message that the dispatcher has parsed when the step is done. -/
def finished (s : State) : Action → List LivingstoneMessage
  | .dispatcher =>
    match s.dispatcher with
    | .parsing msg => [msg]
    | _ => []
  | _ => []

def trackerCalls (s : State) : List TrackerCall := s.parsed.filterMap parseMsg

theorem parsed_stepThread {s s' : State} {i : ℕ} {t : Thread} (hstep : s.stepThread i t = some s') :
    s'.parsed = s.parsed := by
  cases t with
  | adding timer msg point =>
    cases point with
    | waitNotFull => cases hstep
    | release =>
      obtain rfl := Option.some.inj hstep
      rfl
    | _ =>
      rw [State.stepThread] at hstep
      split_ifs at hstep <;> obtain rfl := Option.some.inj hstep <;> rfl
  | done point =>
    cases point with
    | waitIsEmpty second => cases hstep
    | undefined => cases hstep
    | readTimeouts =>
      obtain rfl := Option.some.inj hstep
      rfl
    | release second =>
      obtain rfl := Option.some.inj hstep
      rfl
    | _ =>
      rw [State.stepThread] at hstep
      split_ifs at hstep <;> obtain rfl := Option.some.inj hstep <;> rfl
  | ended => cases hstep
  | _ =>
    obtain rfl := Option.some.inj hstep
    rfl

theorem parsed_pop {s s' : State} (hstep : s.pop = some s') : s'.parsed = s.parsed := by
  unfold State.pop at hstep
  split at hstep
  · cases hstep
  · obtain rfl := Option.some.inj hstep
    rfl

theorem parsed_stepDispatcher {s s' : State} (hstep : s.stepDispatcher = some s') :
    s'.parsed = s.parsed ++ finished s .dispatcher := by
  unfold State.stepDispatcher at hstep
  unfold finished
  cases hpoint : s.dispatcher with
  | parsing msg =>
    rw [hpoint] at hstep
    obtain rfl := Option.some.inj hstep
    rfl
  | release msg =>
    rw [hpoint] at hstep
    obtain rfl := Option.some.inj hstep
    exact (List.append_nil _).symm
  | waitNotEmpty =>
    rw [hpoint] at hstep
    cases hstep
  | _ =>
    rw [hpoint] at hstep
    rw [List.append_nil]
    dsimp only at hstep
    split_ifs at hstep
    all_goals first
      | exact parsed_pop hstep
      | obtain rfl := Option.some.inj hstep; rfl

theorem parsed_step {s s' : State} {a : Action} (hstep : s.step a = some s') :
    s'.parsed = s.parsed ++ finished s a := by
  cases a with
  | call c =>
    obtain rfl := Option.some.inj hstep
    exact (List.append_nil _).symm
  | thread i =>
    obtain ⟨t, -, hstep⟩ := Option.bind_eq_some_iff.mp hstep
    exact (parsed_stepThread hstep).trans (List.append_nil _).symm
  | wake i =>
    obtain ⟨t, -, rfl⟩ := Option.map_eq_some_iff.mp hstep
    exact (List.append_nil _).symm
  | wakeDispatcher =>
    obtain rfl := Option.some.inj hstep
    exact (List.append_nil _).symm
  | dispatcher => exact parsed_stepDispatcher hstep

/-- The dispatcher calls the tracker for the message that it has in hand, and nobody else does. -/
theorem trackerCalls_step {s s' : State} {a : Action} (hstep : s.step a = some s') :
    trackerCalls s' = trackerCalls s ++ (finished s a).filterMap parseMsg := by
  rw [trackerCalls, parsed_step hstep, List.filterMap_append, trackerCalls]

/-- The tracker is called for the messages once each, in the order in which they were pushed. -/
theorem Inv.trackerCalls_initial {s : State} (h : Inv s) :
    trackerCalls s <+: s.pushed.filterMap parseMsg := by
  rw [h.fifo.pushed_eq, List.append_assoc, List.filterMap_append]
  exact List.prefix_append _ _

theorem everyStep_of_inv {P : State → Action → State → Prop}
    (hP : ∀ s a s', Inv s → s.step a = some s' → P s a s') {s : State} (h : Inv s)
    (as : List Action) : EveryStep P s as := by
  induction as generalizing s with
  | nil => exact trivial
  | cons a as ih =>
    rw [EveryStep]
    cases hstep : s.step a with
    | none => exact trivial
    | some s' => exact ⟨hP s a s' h hstep, ih (inv_step h hstep)⟩

/-- In every run the tracker is called as the messages say that have been pushed. -/
theorem everyStep_trackerCalls (as : List Action) : EveryStep (fun s a s' =>
    trackerCalls s' = trackerCalls s ++ (finished s a).filterMap parseMsg ∧
      trackerCalls s' <+: s'.pushed.filterMap parseMsg) {} as :=
  everyStep_of_inv (fun _ _ _ h hstep =>
    ⟨trackerCalls_step hstep, (inv_step h hstep).trackerCalls_initial⟩) inv_init as

/-- The messages are parsed once each and in their order, and the counters are right. -/
def Right (s : State) : Prop :=
  s.pushed = s.parsed ++ s.dispatcher.held ++ s.messages ∧
    s.messagesInQueue = s.messages.length ∧ s.messagesInQueue ≤ maxMsgs ∧
      s.timeoutHandlers = s.threads.countP Thread.isTimer

instance (s : State) : Decidable (Right s) := inferInstanceAs (Decidable (_ ∧ _ ∧ _ ∧ _))

def returns (s : State) : Action → Bool
  | .thread i => s.threads[i]? == some (.done (.release true))
  | _ => false

/-- The thread calls `pthread_create` for a timer. -/
def createsTimer (s : State) : Action → Bool
  | .thread i =>
    match s.threads[i]? with
    | some (.creating _) => true
    | _ => false
  | _ => false

/-- The state after the step is right, and all messages have been parsed when `is_done_empty`
returns. -/
def RightStep (s : State) (a : Action) (s' : State) : Prop :=
  Right s' ∧ (returns s a = true → s'.parsed = s'.pushed)

instance (s : State) (a : Action) (s' : State) : Decidable (RightStep s a s') :=
  inferInstanceAs (Decidable (_ ∧ (_ → _)))

/-- No timer is created, and `is_done_empty` does not return while the dispatcher has a message in
hand. -/
def Meets (s : State) (a : Action) : Prop :=
  createsTimer s a = false ∧ (returns s a = true → s.dispatcher.held = [])

/-- How many clients have created a timer that they have not counted. -/
def uncounted (s : State) : ℕ := s.threads.countP Thread.isCounting

theorem Inv.timeoutHandlers_iff {s : State} (h : Inv s) :
    s.timeoutHandlers = s.threads.countP Thread.isTimer ↔ uncounted s = 0 := by
  have hcounted := h.counted
  unfold Counted at hcounted
  unfold uncounted
  omega

theorem stepThread_threads {s s' : State} {i : ℕ} {t : Thread}
    (hstep : s.stepThread i t = some s') :
    (∃ msg, t = .creating msg ∧ s'.threads = s.threads.set i (.counting msg) ++ [.sleeping]) ∨
      ∃ t', (∀ msg, t ≠ .creating msg) ∧ s'.threads = s.threads.set i t' ∧ t'.isCounting = false := by
  cases t with
  | creating msg =>
    obtain rfl := Option.some.inj hstep
    exact Or.inl ⟨msg, rfl, rfl⟩
  | adding timer msg point =>
    right
    cases point with
    | waitNotFull => cases hstep
    | release =>
      obtain rfl := Option.some.inj hstep
      exact ⟨_, by simp, rfl, by cases timer <;> rfl⟩
    | _ =>
      rw [State.stepThread] at hstep
      split_ifs at hstep <;> obtain rfl := Option.some.inj hstep <;> exact ⟨_, by simp, rfl, rfl⟩
  | done point =>
    right
    cases point with
    | waitIsEmpty second => cases hstep
    | undefined => cases hstep
    | readTimeouts =>
      obtain rfl := Option.some.inj hstep
      exact ⟨_, by simp, rfl, rfl⟩
    | release second =>
      obtain rfl := Option.some.inj hstep
      exact ⟨_, by simp, rfl, by cases second <;> rfl⟩
    | _ =>
      rw [State.stepThread] at hstep
      split_ifs at hstep <;> obtain rfl := Option.some.inj hstep <;> exact ⟨_, by simp, rfl, rfl⟩
  | ended => cases hstep
  | _ =>
    right
    obtain rfl := Option.some.inj hstep
    exact ⟨_, by simp, rfl, rfl⟩

theorem pop_threads {s s' : State} (hstep : s.pop = some s') :
    s'.threads = s.threads.map Thread.wakeNotFull := by
  unfold State.pop at hstep
  split at hstep
  · cases hstep
  · obtain rfl := Option.some.inj hstep
    rfl

theorem uncounted_stepDispatcher {s s' : State} (hstep : s.stepDispatcher = some s') :
    uncounted s' = uncounted s := by
  unfold State.stepDispatcher at hstep
  unfold uncounted
  split at hstep
  · split_ifs at hstep
    obtain rfl := Option.some.inj hstep
    rfl
  · split_ifs at hstep
    · obtain rfl := Option.some.inj hstep
      exact countP_wake _ Thread.isCounting_wakeIsEmpty _
    · rw [pop_threads hstep]
      exact countP_wake _ Thread.isCounting_wakeNotFull _
  · cases hstep
  · split_ifs at hstep
    obtain rfl := Option.some.inj hstep
    rfl
  · split_ifs at hstep
    · obtain rfl := Option.some.inj hstep
      rfl
    · rw [pop_threads hstep]
      exact countP_wake _ Thread.isCounting_wakeNotFull _
  · obtain rfl := Option.some.inj hstep
    rfl
  · obtain rfl := Option.some.inj hstep
    rfl

theorem uncounted_step {s s' : State} (hzero : uncounted s = 0) {a : Action}
    (hstep : s.step a = some s') : uncounted s' = 0 ↔ createsTimer s a = false := by
  cases a with
  | call c =>
    obtain rfl := Option.some.inj hstep
    refine iff_of_true ?_ rfl
    unfold uncounted at hzero ⊢
    rw [List.countP_append, hzero]
    cases c <;> rfl
  | thread i =>
    obtain ⟨t, hi, hstep⟩ := Option.bind_eq_some_iff.mp hstep
    unfold uncounted at hzero ⊢
    rcases stepThread_threads hstep with ⟨msg, rfl, hthreads⟩ | ⟨t', hne, hthreads, ht'⟩
    · refine iff_of_false ?_ (by simp [createsTimer, hi])
      have hcount := countP_put Thread.isCounting (.counting msg) hi
      simp only [Thread.isCounting, Bool.false_eq_true, if_false, if_true] at hcount
      rw [hthreads, List.countP_append]
      omega
    · refine iff_of_true ?_ ?_
      · have hcount := countP_put Thread.isCounting t' hi
        rw [hthreads]
        rw [ht'] at hcount
        simp only [Bool.false_eq_true, if_false] at hcount
        omega
      · cases t with
        | creating msg => exact absurd rfl (hne msg)
        | _ => simp [createsTimer, hi]
  | wake i =>
    obtain ⟨t, hi, rfl⟩ := Option.map_eq_some_iff.mp hstep
    refine iff_of_true ?_ rfl
    have hcount := countP_put Thread.isCounting (t.wakeNotFull.wakeIsEmpty) hi
    unfold uncounted at hzero ⊢
    simp only [Thread.isCounting_wakeIsEmpty, Thread.isCounting_wakeNotFull] at hcount
    dsimp only [State.put]
    omega
  | dispatcher =>
    refine iff_of_true ?_ rfl
    rw [uncounted_stepDispatcher hstep, hzero]
  | wakeDispatcher =>
    obtain rfl := Option.some.inj hstep
    exact iff_of_true hzero rfl

/-- When `is_done_empty` returns, the messages that are not parsed are those in hand. -/
theorem returns_step {s s' : State} (h : Inv s) {a : Action} (hstep : s.step a = some s')
    (hreturns : returns s a = true) : s'.parsed = s'.pushed ↔ s.dispatcher.held = [] := by
  cases a with
  | thread i =>
    rw [returns, beq_iff_eq] at hreturns
    have hzero := h.exclusive.empty i true hreturns
    have hmessages : s.messages = [] := by
      rw [h.fifo.count_eq] at hzero
      exact List.eq_nil_of_length_eq_zero hzero
    rw [State.step, hreturns] at hstep
    obtain rfl := Option.some.inj hstep
    show s.parsed = s.pushed ↔ _
    rw [h.fifo.pushed_eq, hmessages, List.append_nil, List.self_eq_append_right]
  | _ => cases hreturns

theorem rightStep_iff {s s' : State} (h : Inv s) (hzero : uncounted s = 0) {a : Action}
    (hstep : s.step a = some s') : RightStep s a s' ↔ Meets s a := by
  have hinv := inv_step h hstep
  have hcount : Right s' ↔ createsTimer s a = false := by
    rw [← uncounted_step hzero hstep, ← hinv.timeoutHandlers_iff]
    exact ⟨fun hright => hright.2.2.2, fun heq =>
      ⟨hinv.fifo.pushed_eq, hinv.fifo.count_eq, hinv.fifo.count_le, heq⟩⟩
  exact and_congr hcount (forall_congr' fun hreturns => returns_step h hstep hreturns)

theorem everyStep_iff {s : State} (h : Inv s) (hzero : uncounted s = 0) (as : List Action) :
    EveryStep RightStep s as ↔ EveryStep (fun s a _ => Meets s a) s as := by
  induction as generalizing s with
  | nil => exact Iff.rfl
  | cons a as ih =>
    rw [EveryStep, EveryStep]
    cases hstep : s.step a with
    | none => exact Iff.rfl
    | some s' =>
      dsimp only
      rw [rightStep_iff h hzero hstep]
      exact and_congr_right fun hmeets =>
        ih (inv_step h hstep) ((uncounted_step hzero hstep).mpr hmeets.1)

/-- A run of clients, timers and the dispatcher is right in every step exactly when no step of it
creates a timer, and none returns from `is_done_empty` while the dispatcher has a message in
hand. -/
theorem queue_right_iff (as : List Action) :
    EveryStep RightStep {} as ↔ EveryStep (fun s a _ => Meets s a) {} as :=
  everyStep_iff inv_init rfl as

/-- A client asks for a diagnosis, the dispatcher takes the message, and `is_done_empty` returns
before the tracker has done anything. -/
theorem not_queue_right : ¬ EveryStep RightStep {} ([.call .queueFindCandidates] ++
    List.replicate 3 (.thread 0) ++ List.replicate 3 .dispatcher ++ [.call .isDoneEmpty] ++
      List.replicate 7 (.thread 1)) := by
  decide +kernel

end Realtime
end Livingstone
