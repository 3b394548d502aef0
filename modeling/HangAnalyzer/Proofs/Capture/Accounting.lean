import HangAnalyzer.Proofs.Capture.Threads

/-!
# `HangAnalyzer.Proofs.Capture.Accounting`: where the offered records go

`Inv` is what holds in every state of the threads. Each of its clauses has its own
step lemma:

* `stored`: what the queue took is in the file, in the writer's hand or in the
  queue, in this order.
* `counted`: every item offered was taken, was added to a counter, or is under way.
* `held`: a thread holds the value of a counter exactly between its load and its
  store.
* `behind`: a counter is never ahead of the additions made.
* `allowed`: only a live monitor has deliveries under way.
* `ordered`: the order of the shutdown.

When `stop` returns, the records are accounted for exactly when no addition to a
counter was lost, the writer missed no item, and no delivery is under way
(`accounted_iff`).
-/

set_option autoImplicit false

namespace HangAnalyzer.Capture

open HangAnalyzer.Lib

/-- How far `stop` is. -/
def StopPc.rank : StopPc → Nat
  | call       => 0
  | joinFlush  => 1
  | setDone    => 2
  | joinWriter => 3
  | returned   => 4

namespace State

variable {ρ : Type}

/-- The order of the shutdown: the writer's tests, `writer_done`, the end of the flush
thread, and `stop`. -/
structure Ordered (s : State ρ) : Prop where
  tested : s.writer = .testEmpty ∨ s.writer = .exited → s.writerDone = true
  done : s.writerDone = true → 3 ≤ s.stop.rank
  ended : 2 ≤ s.stop.rank → s.flush = .ended
  returned : s.stop = .returned → s.writer = .exited

/-- A thread holds the value of a counter exactly between its load and its store. -/
def Held (s : State ρ) : Prop := ∀ c t, (s.tally c).held t ≠ none ↔ s.loaded t = some c

/-- Every item offered was taken, was added to a counter, or is under way. -/
def Counted (s : State ρ) : Prop :=
  s.offered = s.accepted.length + s.dropped.added + s.callbackErrors.added + s.pending

/-- No item is lost on its way, and the counters are never ahead. -/
structure Inv (s : State ρ) : Prop where
  stored : s.accepted = s.lines ++ s.writer.hand ++ s.items
  counted : s.Counted
  held : s.Held
  behind : ∀ c, (s.tally c).Behind
  allowed : ∀ m, s.live m = false → s.busy m = false
  ordered : s.Ordered

variable {s s' : State ρ} {codec : Codec} {path : String} {a : Action ρ}

/-! ### The counters -/

/-- The values that the threads hold keep in step with where the threads are. -/
theorem Held.turn {thread : Option Thread} (h : s.Held) (hturn : Turn s thread s') :
    s'.Held := by
  intro c t
  cases hturn with
  | keep _ hloaded htally => rw [hloaded, htally, h c t]
  -- Another counter is not the one that `u` has loaded, before or after.
  | load u d _ hfree hloaded htally =>
      rw [hloaded, htally]
      by_cases hc : c = d
      · subst hc
        rw [Function.update_self, Counter.held_load_ne_none, Function.update_apply]
        split
        · rename_i heq
          simp [heq]
        · rename_i hne
          simp [hne, h c t]
      · rw [Function.update_of_ne hc, h c t, Function.update_apply]
        split
        · rename_i heq
          rw [heq, hfree]
          simp [Ne.symm hc]
        · exact Iff.rfl
  | store u d _ hheld hloaded htally =>
      have hu : (s.tally d).held u ≠ none := (h d u).mpr hheld
      rw [hloaded, htally]
      by_cases hc : c = d
      · subst hc
        rw [Function.update_self, Counter.held_store_ne_none hu, h c t, Function.update_apply]
        split
        · rename_i heq
          simp [heq]
        · rename_i hne
          simp [hne]
      · rw [Function.update_of_ne hc, h c t, Function.update_apply]
        split
        · rename_i heq
          rw [heq, hheld]
          simp [Ne.symm hc]
        · exact Iff.rfl

/-- What loads and stores preserve is preserved for every counter. -/
theorem Turn.tally_ind {thread : Option Thread} (hturn : Turn s thread s') (hheld : s.Held)
    {P : Counter Thread → Prop} {c : Tally} (hc : P (s.tally c))
    (hload : ∀ t, (s.tally c).held t = none → P ((s.tally c).load t))
    (hstore : ∀ t v, thread = some t → (s.tally c).held t = some v → P ((s.tally c).store t)) :
    P (s'.tally c) := by
  cases hturn with
  | keep _ _ htally => rwa [htally]
  | load t d _ hfree _ htally =>
      rw [htally, Function.update_apply]
      split
      · -- The thread had loaded nothing, so it holds no value of this counter.
        rename_i heq
        subst heq
        refine hload t (by_contra fun hne => ?_)
        rw [(hheld c t).mp hne] at hfree
        cases hfree
      · exact hc
  | store t d hown ht _ htally =>
      rw [htally, Function.update_apply]
      split
      · rename_i heq
        subst heq
        -- The thread holds the value that it has loaded.
        obtain ⟨v, hv⟩ := Option.ne_none_iff_exists'.mp ((hheld c t).mpr ht)
        exact hstore t v hown hv
      · exact hc

/-- A thread stores a counter only while no other thread holds a value of it. -/
def Undisturbed (s : State ρ) (a : Action ρ) : Prop :=
  ∀ t c, a.thread? = some t → s.loaded t = some c → ∀ u, u ≠ t → s.loaded u ≠ some c

/-- A thread that is undisturbed is the only one with a value of its counter. -/
theorem Undisturbed.alone (h : s.Undisturbed a) (hheld : s.Held) {t : Thread} {c : Tally}
    (hown : a.thread? = some t) (ht : (s.tally c).held t ≠ none) : (s.tally c).Alone t := by
  intro u hne
  by_contra hu
  exact h t c hown ((hheld c t).mp ht) u hne ((hheld c u).mp hu)

/-- No step puts a counter ahead. -/
theorem behind_step (hheld : s.Held) (h : ∀ c, (s.tally c).Behind)
    (hstep : s.step codec path a = some s') (c : Tally) : (s'.tally c).Behind :=
  (turn_step hstep).tally_ind hheld (h c) (fun _ _ => (h c).load)
    (fun _ _ _ hv => (h c).store hv)

/-- A step that disturbs nobody keeps the counters right. -/
theorem exact_step (hheld : s.Held) (h : ∀ c, (s.tally c).Exact) (hund : s.Undisturbed a)
    (hstep : s.step codec path a = some s') (c : Tally) : (s'.tally c).Exact := by
  refine (turn_step hstep).tally_ind hheld (h c) (fun _ _ => (h c).load) ?_
  intro t v hown hv
  exact (h c).store hv (hund.alone hheld hown (by simp [hv]))

/-- A counter that is too small stays so. -/
theorem doomed_step (hheld : s.Held) (hbehind : ∀ c, (s.tally c).Behind) {c : Tally}
    (h : (s.tally c).Doomed) (hstep : s.step codec path a = some s') : (s'.tally c).Doomed :=
  (turn_step hstep).tally_ind hheld h (fun _ ht => h.load ht)
    (fun _ _ _ hv => h.store (hbehind c) hv)

/-- A store while another thread holds a value of the counter dooms it. -/
theorem doomed_of_disturbed (hheld : s.Held) (hbehind : ∀ c, (s.tally c).Behind)
    (hnot : ¬ s.Undisturbed a) (hstep : s.step codec path a = some s') :
    ∃ c, (s'.tally c).Doomed := by
  obtain ⟨t, c, hown, ht, u, hne, hu⟩ : ∃ t c, a.thread? = some t ∧ s.loaded t = some c ∧
      ∃ u, u ≠ t ∧ s.loaded u = some c := by
    unfold Undisturbed at hnot
    push Not at hnot
    exact hnot
  refine ⟨c, ?_⟩
  -- The step is the store of the thread, and of this counter.
  cases turn_step hstep with
  | keep hfree _ _ =>
      rw [hfree t hown] at ht
      cases ht
  | load t' d hown' hfree _ _ =>
      rw [Option.some.inj (hown.symm.trans hown'), hfree] at ht
      cases ht
  | store t' d hown' ht' _ htally =>
      obtain rfl : t = t' := Option.some.inj (hown.symm.trans hown')
      obtain rfl : c = d := Option.some.inj (ht.symm.trans ht')
      rw [htally, Function.update_self]
      obtain ⟨v, hv⟩ := Option.ne_none_iff_exists'.mp ((hheld c t).mpr ht)
      -- The other thread holds a value that is now out of date.
      refine (hbehind c).doomed_store hv fun halone => ?_
      exact (hheld c u).mpr hu (halone u hne)

/-! ### The queue -/

/-- A step of another thread than the writer puts at most one item into the queue. -/
theorem queue_cases (h : s.step codec path a = some s') :
    (s'.accepted = s.accepted ∧ s'.items = s.items ∧ s'.lines = s.lines ∧ s'.writer = s.writer) ∨
      (∃ item, s'.accepted = s.accepted ++ [item] ∧ s'.items = s.items ++ [item] ∧
        s'.lines = s.lines ∧ s'.writer = s.writer) ∨
      s.writerStep = some s' := by
  -- Only a put adds to the queue, and only the writer takes from it.
  cases a with
  | deliver m row =>
      obtain ⟨-, d, -, -, -, rfl⟩ := deliver_cases h
      exact Or.inl ⟨rfl, rfl, rfl, rfl⟩
  | delivery k =>
      obtain ⟨d, -, h⟩ := delivery_cases h
      rcases h with ⟨row, -, -, rfl⟩ | ⟨_, -, -, rfl⟩ | ⟨-, rfl⟩ | ⟨-, rfl⟩ |
        ⟨_, -, rfl⟩ | ⟨_, -, rfl⟩
      · exact Or.inr (Or.inl ⟨.activity row, rfl, rfl, rfl, rfl⟩)
      all_goals exact Or.inl ⟨rfl, rfl, rfl, rfl⟩
  | flush round hostTimeNs =>
      rcases flush_cases h with ⟨_, _, _, _, rfl, -⟩ | ⟨_, _, _, item, -, rfl⟩ |
        ⟨_, _, _, -, rfl⟩ | ⟨_, _, -, rfl⟩ | ⟨_, _, -, rfl⟩
      · exact Or.inl ⟨rfl, rfl, rfl, rfl⟩
      · exact Or.inr (Or.inl ⟨item, rfl, rfl, rfl, rfl⟩)
      all_goals exact Or.inl ⟨rfl, rfl, rfl, rfl⟩
  | writer => exact Or.inr (Or.inr h)
  | stop =>
      rcases stop_cases h with ⟨-, rfl⟩ | ⟨-, -, rfl⟩ | ⟨-, rfl⟩ | ⟨-, -, rfl⟩
      all_goals exact Or.inl ⟨rfl, rfl, rfl, rfl⟩

/-- An item goes from the queue to the writer and from there to the file, in order. -/
theorem stored_step (h : s.accepted = s.lines ++ s.writer.hand ++ s.items)
    (hstep : s.step codec path a = some s') :
    s'.accepted = s'.lines ++ s'.writer.hand ++ s'.items := by
  rcases queue_cases hstep with ⟨haccepted, hitems, hlines, hwriter⟩ |
    ⟨item, haccepted, hitems, hlines, hwriter⟩ | hwriter
  · rw [haccepted, hitems, hlines, hwriter, h]
  · rw [haccepted, hitems, hlines, hwriter, h, List.append_assoc]
  · rcases writer_cases hwriter with ⟨writer', rfl, -, hhand, hhand', -⟩ |
      ⟨item, items, hget, hitems, rfl⟩ | ⟨item, hwrite, rfl⟩
    · show s.accepted = s.lines ++ writer'.hand ++ s.items
      rw [h, hhand, hhand']
    · show s.accepted = s.lines ++ [item] ++ items
      rw [h, hget, hitems]
      show s.lines ++ [] ++ item :: items = _
      simp
    · show s.accepted = s.lines ++ [item] ++ [] ++ s.items
      rw [h, hwrite, List.append_nil]
      rfl

/-! ### The items under way -/

/-- Changing one entry changes a count by that entry. -/
theorem countP_modify {α : Type} {p : α → Bool} {f : α → α} {l : List α} {k : Nat} {x : α}
    (hx : l[k]? = some x) :
    (l.modify k f).countP p + (if p x then 1 else 0)
      = l.countP p + (if p (f x) then 1 else 0) := by
  induction l generalizing k with
  | nil => cases hx
  | cons y l ih =>
      cases k with
      | zero =>
          obtain rfl : y = x := Option.some.inj hx
          rw [List.modify_zero_cons, List.countP_cons, List.countP_cons]
          omega
      | succ k =>
          have hl := ih hx
          rw [List.modify_succ_cons, List.countP_cons, List.countP_cons]
          omega

/-- The items under way after a step of a delivery. -/
theorem pending_setDelivery {k : Nat} {d : Delivery ρ} (hd : s.deliveries[k]? = some d)
    (hway : d.underWay = true) (pc : DeliveryPc ρ) :
    (s.setDelivery k pc).pending + 1
      = s.pending + if (⟨d.monitor, pc⟩ : Delivery ρ).underWay then 1 else 0 := by
  have hcount := countP_modify (p := Delivery.underWay) (f := fun d => { d with pc }) hd
  rw [if_pos hway] at hcount
  have hflush : (s.setDelivery k pc).flush = s.flush := rfl
  unfold pending
  rw [hflush]
  show (s.deliveries.modify k _).countP _ + _ + 1 = _
  omega

/-- A delivery that is under way goes on. -/
theorem pending_setDelivery_underWay {k : Nat} {d : Delivery ρ} (hd : s.deliveries[k]? = some d)
    (hway : d.underWay = true) {pc : DeliveryPc ρ}
    (hpc : (⟨d.monitor, pc⟩ : Delivery ρ).underWay = true) :
    (s.setDelivery k pc).pending = s.pending := by
  have h := pending_setDelivery hd hway pc
  rw [if_pos hpc] at h
  exact Nat.succ.inj h

/-- A delivery that is under way returns. -/
theorem pending_setDelivery_done {k : Nat} {d : Delivery ρ} (hd : s.deliveries[k]? = some d)
    (hway : d.underWay = true) : (s.setDelivery k .done).pending + 1 = s.pending :=
  pending_setDelivery hd hway .done

/-- A thread adds to a counter when it stores. -/
theorem added_store_of_loaded (hheld : s.Held) {c : Tally} {t : Thread}
    (h : s.loaded t = some c) : ((s.tally c).store t).added = (s.tally c).added + 1 := by
  obtain ⟨v, hv⟩ := Option.ne_none_iff_exists'.mp ((hheld c t).mpr h)
  exact Counter.added_store hv

/-- A step of a delivery keeps the sum. -/
theorem counted_delivery (hheld : s.Held) (h : s.Counted) {k : Nat}
    (hstep : s.delivery k = some s') : s'.Counted := by
  obtain ⟨d, hd, hcases⟩ := delivery_cases hstep
  have hloaded : s.loaded (.delivery k) = d.pc.loaded := by
    show (s.deliveries[k]?.bind fun d => d.pc.loaded) = _
    rw [hd]
    rfl
  -- Along a delivery the item is pending until it is accepted or one of the counters has it.
  unfold Counted at *
  rcases hcases with ⟨row, hpc, -, rfl⟩ | ⟨row, hpc, -, rfl⟩ | ⟨hpc, rfl⟩ | ⟨hpc, rfl⟩ |
    ⟨text, hpc, rfl⟩ | ⟨text, hpc, rfl⟩
  · have hway : d.underWay = true := by rw [Delivery.underWay, hpc]
    have hdone := pending_setDelivery_done hd hway
    show s.offered = (s.accepted ++ [Item.activity row]).length + s.dropped.added +
      s.callbackErrors.added + (s.setDelivery k .done).pending
    rw [List.length_append, List.length_singleton]
    omega
  · have hway : d.underWay = true := by rw [Delivery.underWay, hpc]
    show s.offered = s.accepted.length + s.dropped.added + s.callbackErrors.added +
      (s.setDelivery k .full).pending
    rw [pending_setDelivery_underWay hd hway rfl]
    exact h
  · have hway : d.underWay = true := by rw [Delivery.underWay, hpc]
    show s.offered = s.accepted.length + s.dropped.added + s.callbackErrors.added +
      (s.setDelivery k .fullLoaded).pending
    rw [pending_setDelivery_underWay hd hway rfl]
    exact h
  · have hway : d.underWay = true := by rw [Delivery.underWay, hpc]
    have hdone := pending_setDelivery_done hd hway
    rw [hpc] at hloaded
    have hadded : (s.dropped.store (.delivery k)).added = s.dropped.added + 1 :=
      added_store_of_loaded hheld hloaded
    show s.offered = s.accepted.length + (s.dropped.store (.delivery k)).added +
      s.callbackErrors.added + (s.setDelivery k .done).pending
    omega
  · have hway : d.underWay = true := by rw [Delivery.underWay, hpc]
    show s.offered = s.accepted.length + s.dropped.added + s.callbackErrors.added +
      (s.setDelivery k (.errorLoaded text)).pending
    rw [pending_setDelivery_underWay hd hway rfl]
    exact h
  · have hway : d.underWay = true := by rw [Delivery.underWay, hpc]
    have hdone := pending_setDelivery_done hd hway
    rw [hpc] at hloaded
    have hadded : (s.callbackErrors.store (.delivery k)).added = s.callbackErrors.added + 1 :=
      added_store_of_loaded hheld hloaded
    show s.offered = s.accepted.length + s.dropped.added +
      (s.callbackErrors.store (.delivery k)).added + (s.setDelivery k .done).pending
    omega

/-- A step of the flush thread that leaves its item where it is. -/
theorem pending_flush {flush' : FlushPc} (h : flush'.underWay = s.flush.underWay) :
    ({ s with flush := flush' } : State ρ).pending = s.pending := by
  simp only [pending, h]

/-- The item of the flush thread finds the queue full. -/
theorem pending_flush_full (calls : List LoopCall) (final : Bool)
    (h : s.flush.underWay = false) :
    ({ s with flush := .full calls final } : State ρ).pending = s.pending + 1 := by
  have hfull : (FlushPc.full calls final).underWay = true := rfl
  simp [pending, h, hfull]

/-- The item of the flush thread has been counted. -/
theorem pending_flush_counted {calls : List LoopCall} {final : Bool}
    (h : s.flush.underWay = true) :
    ({ s with flush := .run calls final } : State ρ).pending + 1 = s.pending := by
  have hrun : (FlushPc.run calls final).underWay = false := rfl
  simp [pending, h, hrun]

/-- A step of the flush thread keeps the sum. -/
theorem counted_flush (hheld : s.Held) (h : s.Counted) {round : Round} {hostTimeNs : Nat}
    (hstep : s.flushStep codec path round hostTimeNs = some s') : s'.Counted := by
  -- The item of a flush is new, so it is offered in the step that accepts it or finds no room.
  unfold Counted at *
  rcases flush_cases hstep with ⟨_, flush', _, _, rfl, -, hway, -, hway', -⟩ |
    ⟨_, calls, final, item, hflush, rfl⟩ | ⟨_, calls, final, hflush, rfl⟩ |
    ⟨calls, final, hflush, rfl⟩ | ⟨calls, final, hflush, rfl⟩
  · have hpending := pending_flush (hway'.trans hway.symm)
    exact h.trans (congrArg _ hpending.symm)
  · have hway : (FlushPc.run calls final).underWay = s.flush.underWay := by rw [hflush]; rfl
    have hpending := pending_flush hway
    show s.offered + 1 = (s.accepted ++ [item]).length + s.dropped.added +
      s.callbackErrors.added + ({ s with flush := .run calls final } : State ρ).pending
    rw [List.length_append, List.length_singleton, hpending]
    omega
  · have hway : s.flush.underWay = false := by rw [hflush]; rfl
    have hpending := pending_flush_full calls final hway
    show s.offered + 1 = s.accepted.length + s.dropped.added + s.callbackErrors.added +
      ({ s with flush := .full calls final } : State ρ).pending
    omega
  · have hway : (FlushPc.fullLoaded calls final).underWay = s.flush.underWay := by rw [hflush]; rfl
    exact h.trans (congrArg _ (pending_flush hway).symm)
  · have hway : s.flush.underWay = true := by rw [hflush]; rfl
    have hloaded : s.loaded .flush = some .dropped := by
      show s.flush.loaded = _
      rw [hflush]
      rfl
    have hadded : (s.dropped.store .flush).added = s.dropped.added + 1 :=
      added_store_of_loaded hheld hloaded
    have hpending : ({ s with flush := .run calls final } : State ρ).pending + 1 = s.pending :=
      pending_flush_counted hway
    show s.offered = s.accepted.length + (s.dropped.store .flush).added + s.callbackErrors.added +
      ({ s with flush := .run calls final } : State ρ).pending
    omega

/-- Every step keeps the sum. -/
theorem counted_step (hheld : s.Held) (h : s.Counted) (hstep : s.step codec path a = some s') :
    s'.Counted := by
  cases a with
  | deliver m row =>
      -- The new delivery offers its item and is under way.
      obtain ⟨-, d, -, hway, -, rfl⟩ := deliver_cases hstep
      have hpending : ({ s with deliveries := s.deliveries ++ [d] } : State ρ).pending
          = s.pending + 1 := by
        simp only [pending, List.countP_append, List.countP_singleton, hway, if_true]
        omega
      show s.offered + 1 = s.accepted.length + s.dropped.added + s.callbackErrors.added +
        ({ s with deliveries := s.deliveries ++ [d] } : State ρ).pending
      unfold Counted at h
      omega
  | delivery k => exact counted_delivery hheld h hstep
  | flush round hostTimeNs => exact counted_flush hheld h hstep
  | writer =>
      -- The others offer nothing and count nothing.
      rcases writer_cases hstep with ⟨_, rfl, -⟩ | ⟨_, _, -, -, rfl⟩ | ⟨_, -, rfl⟩
      all_goals exact h
  | stop =>
      rcases stop_cases hstep with ⟨-, rfl⟩ | ⟨-, -, rfl⟩ | ⟨-, rfl⟩ | ⟨-, -, rfl⟩
      all_goals exact h

/-! ### Deliveries and live monitors -/

/-- A monitor is busy when one of its deliveries has not returned. -/
theorem busy_iff {m : Monitor} :
    s.busy m = true ↔ ∃ d ∈ s.deliveries, d.monitor = m ∧ d.underWay = true := by
  simp [busy]

/-- A delivery that goes on keeps its monitor. -/
theorem busy_delivery {k : Nat} (hstep : s.delivery k = some s') {m : Monitor}
    (hbusy : s'.busy m = true) : s.busy m = true := by
  obtain ⟨d, hd, hcases⟩ := delivery_cases hstep
  -- A delivery that makes a step is under way before it.
  have hway : d.underWay = true := by
    rcases hcases with ⟨_, hpc, -⟩ | ⟨_, hpc, -⟩ | ⟨hpc, -⟩ | ⟨hpc, -⟩ | ⟨_, hpc, -⟩ | ⟨_, hpc, -⟩
    all_goals rw [Delivery.underWay, hpc]
  obtain ⟨pc, hpc⟩ : ∃ pc, s'.deliveries = s.deliveries.modify k fun d => { d with pc } := by
    rcases hcases with ⟨_, -, -, rfl⟩ | ⟨_, -, -, rfl⟩ | ⟨-, rfl⟩ | ⟨-, rfl⟩ |
      ⟨_, -, rfl⟩ | ⟨_, -, rfl⟩
    all_goals exact ⟨_, rfl⟩
  obtain ⟨e, he, hm, hewayy⟩ := busy_iff.mp hbusy
  rw [hpc, List.mem_iff_getElem?] at he
  obtain ⟨j, hj⟩ := he
  -- The delivery that makes the step was under way, and the others are as they were.
  by_cases hjk : j = k
  · subst hjk
    rw [List.getElem?_modify_eq, hd] at hj
    refine busy_iff.mpr ⟨d, List.mem_of_getElem? hd, ?_, hway⟩
    rw [← hm, ← Option.some.inj hj]
  · rw [List.getElem?_modify_ne _ _ (Ne.symm hjk)] at hj
    exact busy_iff.mpr ⟨e, List.mem_of_getElem? hj, hm, hewayy⟩

/-- A monitor that is not running has no delivery under way. It is stopped only when none is,
and no other step starts one. -/
theorem allowed_step (h : ∀ m, s.live m = false → s.busy m = false)
    (hstep : s.step codec path a = some s') (m : Monitor) (hlive : s'.live m = false) :
    s'.busy m = false := by
  cases a with
  | deliver m' row =>
      -- A delivery starts only at a monitor that runs.
      obtain ⟨hlive', d, hm, -, -, rfl⟩ := deliver_cases hstep
      have hold : s.busy m = false := h m hlive
      have hne : d.monitor ≠ m := by
        intro heq
        rw [← heq, hm] at hlive
        exact absurd (hlive'.symm.trans hlive) (by decide)
      simp only [busy, List.any_append, List.any_cons, List.any_nil] at hold ⊢
      rw [hold]
      simp [hne]
  | delivery k =>
      have hold : s.live m = false := by
        obtain ⟨d, -, hcases⟩ := delivery_cases hstep
        rcases hcases with ⟨_, -, -, rfl⟩ | ⟨_, -, -, rfl⟩ | ⟨-, rfl⟩ | ⟨-, rfl⟩ | ⟨_, -, rfl⟩ |
          ⟨_, -, rfl⟩
        all_goals cases m <;> exact hlive
      by_contra hbusy
      have := busy_delivery hstep (eq_true_of_ne_false hbusy)
      rw [h m hold] at this
      cases this
  | flush round hostTimeNs =>
      rcases flush_cases hstep with ⟨_, _, _, _, rfl, -, -, -, -, -, hkeeps⟩ |
        ⟨_, _, _, _, -, rfl⟩ | ⟨_, _, _, -, rfl⟩ | ⟨_, _, -, rfl⟩ | ⟨_, _, -, rfl⟩
      · -- A monitor is stopped only when it is idle.
        show s.busy m = false
        cases hold : s.live m with
        | false => exact h m hold
        | true =>
            rcases hkeeps m hold with hstill | hidle
            · exact absurd (hstill.symm.trans hlive) (by decide)
            · exact hidle
      all_goals
        have hold : s.live m = false := by cases m <;> exact hlive
        exact h m hold
  | writer =>
      rcases writer_cases hstep with ⟨_, rfl, -⟩ | ⟨_, _, -, -, rfl⟩ | ⟨_, -, rfl⟩
      all_goals
        have hold : s.live m = false := by cases m <;> exact hlive
        exact h m hold
  | stop =>
      -- The other threads start no delivery.
      rcases stop_cases hstep with ⟨-, rfl⟩ | ⟨-, -, rfl⟩ | ⟨-, rfl⟩ | ⟨-, -, rfl⟩
      all_goals
        have hold : s.live m = false := by cases m <;> exact hlive
        exact h m hold

/-! ### The shutdown -/

/-- A delivery does not touch what the shutdown uses. -/
theorem ordered_delivery (h : s.Ordered) {k : Nat} (hstep : s.delivery k = some s') :
    s'.Ordered := by
  obtain ⟨d, -, hcases⟩ := delivery_cases hstep
  rcases hcases with ⟨_, -, -, rfl⟩ | ⟨_, -, -, rfl⟩ | ⟨-, rfl⟩ | ⟨-, rfl⟩ |
    ⟨_, -, rfl⟩ | ⟨_, -, rfl⟩
  all_goals exact ⟨h.tested, h.done, h.ended, h.returned⟩

/-- While the flush thread runs, `stop` waits for it. -/
theorem ordered_flush (h : s.Ordered) {round : Round} {hostTimeNs : Nat}
    (hstep : s.flushStep codec path round hostTimeNs = some s') : s'.Ordered := by
  have hearly : ¬ 2 ≤ s.stop.rank := by
    intro hrank
    rw [flushStep, h.ended hrank] at hstep
    cases hstep
  rcases flush_cases hstep with ⟨_, _, _, _, rfl, -⟩ | ⟨_, _, _, _, -, rfl⟩ | ⟨_, _, _, -, rfl⟩ |
    ⟨_, _, -, rfl⟩ | ⟨_, _, -, rfl⟩
  all_goals exact ⟨h.tested, h.done, fun hrank => absurd hrank hearly, h.returned⟩

/-- The writer ends only after `writer_done`. -/
theorem ordered_writer (h : s.Ordered) (hstep : s.writerStep = some s') : s'.Ordered := by
  have hrunning : s.stop ≠ .returned := by
    intro hstop
    rw [writerStep, h.returned hstop] at hstep
    cases hstep
  rcases writer_cases hstep with ⟨writer', rfl, -, -, -, htest, hexit⟩ | ⟨_, _, -, -, rfl⟩ |
    ⟨_, -, rfl⟩
  · refine ⟨fun hwriter => ?_, h.done, h.ended, fun hstop => absurd hstop hrunning⟩
    rcases hwriter with hwriter | hwriter
    · exact htest hwriter
    · exact h.tested (Or.inl (hexit hwriter).1)
  all_goals
    refine ⟨fun hwriter => ?_, h.done, h.ended, fun hstop => absurd hstop hrunning⟩
    rcases hwriter with hwriter | hwriter <;> cases hwriter

/-- `stop` goes on only when the thread that it joins has ended. -/
theorem ordered_stop (h : s.Ordered) (hstep : s.stopStep = some s') : s'.Ordered := by
  rcases stop_cases hstep with ⟨hstop, rfl⟩ | ⟨hstop, hended, rfl⟩ | ⟨hstop, rfl⟩ |
    ⟨hstop, hexited, rfl⟩
  · refine ⟨h.tested, fun hdone => ?_, fun hrank => ?_, fun hreturned => by cases hreturned⟩
    · have hrank := h.done hdone
      rw [hstop] at hrank
      exact absurd hrank (by decide)
    · have hrank : 2 ≤ StopPc.joinFlush.rank := hrank
      exact absurd hrank (by decide)
  · refine ⟨h.tested, fun hdone => ?_, fun _ => hended, fun hreturned => by cases hreturned⟩
    have hrank := h.done hdone
    rw [hstop] at hrank
    exact absurd hrank (by decide)
  · have hended : s.flush = .ended := h.ended (by rw [hstop]; decide)
    exact ⟨fun _ => rfl, fun _ => Nat.le_refl 3, fun _ => hended,
      fun hreturned => by cases hreturned⟩
  · have hended : s.flush = .ended := h.ended (by rw [hstop]; decide)
    exact ⟨h.tested, fun _ => Nat.le_succ 3, fun _ => hended, fun _ => hexited⟩

/-- Every step keeps the order of the shutdown. -/
theorem ordered_step (h : s.Ordered) (hstep : s.step codec path a = some s') : s'.Ordered := by
  cases a with
  | deliver m row =>
      obtain ⟨-, d, -, -, -, rfl⟩ := deliver_cases hstep
      exact ⟨h.tested, h.done, h.ended, h.returned⟩
  | delivery k => exact ordered_delivery h hstep
  | flush round hostTimeNs => exact ordered_flush h hstep
  | writer => exact ordered_writer h hstep
  | stop => exact ordered_stop h hstep

/-! ### Every state of a run -/

/-- Nothing has been offered at the start. -/
theorem inv_start (n : Nat) : (start n : State ρ).Inv where
  stored := rfl
  counted := rfl
  held c t := by cases c <;> cases t <;> simp [start, tally, loaded, Counter.zero, FlushPc.loaded]
  behind c := by cases c <;> exact Counter.behind_zero
  allowed _ _ := rfl
  ordered := ⟨by simp [start], by simp [start], by simp [start, StopPc.rank], by simp [start]⟩

/-- Every step keeps the invariant. -/
theorem inv_step (h : s.Inv) (hstep : s.step codec path a = some s') : s'.Inv where
  stored := stored_step h.stored hstep
  counted := counted_step h.held h.counted hstep
  held := h.held.turn (turn_step hstep)
  behind := behind_step h.held h.behind hstep
  allowed := allowed_step h.allowed hstep
  ordered := ordered_step h.ordered hstep

/-- `Inv` holds after every run. -/
theorem inv_run {n : Nat} {as : List (Action ρ)} (h : Run (step codec path) (start n) as s) :
    s.Inv :=
  h.invariant Inv (fun _ _ _ hs hstep => inv_step hs hstep) (inv_start n)

/-! ### The accounting -/

/-- A callback puts its item into the queue. -/
def Puts (s : State ρ) : Action ρ → Prop
  | .delivery k => ∃ d row, s.deliveries[k]? = some d ∧ d.pc = .put row ∧
      s.items.length < s.queueSize
  | _ => False

/-- A step that loses no item: no other thread is adding to the counter that the step
stores, and the writer has not left its loop when a callback puts an item. -/
def Sound (s : State ρ) (a : Action ρ) (_ : State ρ) : Prop :=
  s.Undisturbed a ∧ (s.writer = .exited → ¬ s.Puts a)

/-- Every item offered is in the file or counted, and the file holds exactly what the
queue took. -/
def Accounted (s : State ρ) : Prop :=
  s.lines = s.accepted ∧
    s.offered = s.lines.length + s.dropped.value + s.callbackErrors.value

/-- No call of `_enqueue` is under way. -/
def Quiet (s : State ρ) : Prop := ∀ d ∈ s.deliveries, d.underWay = false

/-- The writer has left its loop and an item is in the queue. -/
def Missed (s : State ρ) : Prop := s.writer = .exited ∧ s.items ≠ []

/-- An item that is put after the writer has left its loop stays in the queue. -/
theorem missed_step (h : s.Missed) (hstep : s.step codec path a = some s') : s'.Missed := by
  obtain ⟨hexited, hitems⟩ := h
  rcases queue_cases hstep with ⟨-, hitems', -, hwriter⟩ | ⟨item, -, hitems', -, hwriter⟩ | hwriter
  · exact ⟨hwriter.trans hexited, by rwa [hitems']⟩
  · exact ⟨hwriter.trans hexited, by simp [hitems']⟩
  · rw [writerStep, hexited] at hwriter
    cases hwriter

/-- Once the writer has left its loop, only a callback can put an item. -/
theorem items_of_exited (h : s.Inv) (hexited : s.writer = .exited)
    (hstep : s.step codec path a = some s') :
    s'.writer = .exited ∧ (s.Puts a → s'.items ≠ []) ∧ (¬ s.Puts a → s'.items = s.items) := by
  have hended : s.flush = .ended := by
    have hdone := h.ordered.done (h.ordered.tested (Or.inr hexited))
    exact h.ordered.ended (Nat.le_of_succ_le hdone)
  cases a with
  | deliver m row =>
      obtain ⟨-, d, -, -, -, rfl⟩ := deliver_cases hstep
      exact ⟨hexited, False.elim, fun _ => rfl⟩
  | delivery k =>
      obtain ⟨d, hd, hcases⟩ := delivery_cases hstep
      -- Only a callback that is about to put its item can be one that puts it.
      have hputs : s.Puts (.delivery k) → ∃ row, d.pc = .put row := by
        rintro ⟨d', row, hd', hpc, -⟩
        obtain rfl := Option.some.inj (hd.symm.trans hd')
        exact ⟨row, hpc⟩
      rcases hcases with ⟨row, hpc, hroom, rfl⟩ | ⟨row, hpc, hfull, rfl⟩ | ⟨hpc, rfl⟩ | ⟨hpc, rfl⟩ |
        ⟨_, hpc, rfl⟩ | ⟨_, hpc, rfl⟩
      · refine ⟨hexited, fun _ => ?_, fun hnot => absurd ⟨d, row, hd, hpc, hroom⟩ hnot⟩
        show s.items ++ [_] ≠ []
        simp
      · refine ⟨hexited, ?_, fun _ => rfl⟩
        rintro ⟨-, -, -, -, hroom⟩
        exact absurd hroom (Nat.not_lt_of_le hfull)
      all_goals
        refine ⟨hexited, fun h => ?_, fun _ => rfl⟩
        obtain ⟨row, hput⟩ := hputs h
        rw [hpc] at hput
        cases hput
  | flush round hostTimeNs =>
      have hstep : s.flushStep codec path round hostTimeNs = some s' := hstep
      rw [flushStep, hended] at hstep
      cases hstep
  | writer =>
      have hstep : s.writerStep = some s' := hstep
      rw [writerStep, hexited] at hstep
      cases hstep
  | stop =>
      rcases stop_cases hstep with ⟨-, rfl⟩ | ⟨-, -, rfl⟩ | ⟨-, rfl⟩ | ⟨-, -, rfl⟩
      all_goals exact ⟨hexited, False.elim, fun _ => rfl⟩

/-- The queue stays empty once the writer has found it empty, as long as no callback
puts an item. -/
theorem emptied_step (h : s.Inv) (hempty : s.writer = .exited → s.items = [])
    (hsound : s.writer = .exited → ¬ s.Puts a) (hstep : s.step codec path a = some s')
    (hexited' : s'.writer = .exited) : s'.items = [] := by
  by_cases hexited : s.writer = .exited
  · rw [(items_of_exited h hexited hstep).2.2 (hsound hexited), hempty hexited]
  · rcases queue_cases hstep with ⟨-, -, -, hwriter⟩ | ⟨_, -, -, -, hwriter⟩ | hwriter
    · exact absurd (hwriter.symm.trans hexited') hexited
    · exact absurd (hwriter.symm.trans hexited') hexited
    · rcases writer_cases hwriter with ⟨_, rfl, -, -, -, -, hexit⟩ | ⟨_, _, -, -, rfl⟩ | ⟨_, -, rfl⟩
      · exact (hexit hexited').2
      · cases hexited'
      · cases hexited'

/-- A thread that has loaded a counter has an item under way. -/
theorem pending_pos_of_loaded {t : Thread} {c : Tally} (h : s.loaded t = some c) :
    0 < s.pending := by
  unfold pending
  -- Only a thread between the load and the store of a counter holds a value, and its item is
  -- counted by the store.
  cases t with
  | flush =>
      have hway : s.flush.underWay = true := by
        have hloaded : s.flush.loaded = some c := h
        cases hflush : s.flush with
        | fullLoaded calls final => rfl
        | _ =>
            rw [hflush] at hloaded
            cases hloaded
      rw [hway]
      exact Nat.succ_pos _
  | delivery k =>
      obtain ⟨d, hd, hloaded⟩ := Option.bind_eq_some_iff.mp h
      have hway : d.underWay = true := by
        unfold Delivery.underWay
        cases hpc : d.pc with
        | done =>
            rw [hpc] at hloaded
            cases hloaded
        | _ => rfl
      have hcount := List.countP_pos_iff.mpr ⟨d, List.mem_of_getElem? hd, hway⟩
      omega

/-- When nothing is under way, no thread holds the value of a counter. -/
theorem idle_of_pending (h : s.Inv) (hpending : s.pending = 0) (c : Tally) :
    (s.tally c).Idle := by
  intro t
  by_contra hne
  have hpos := pending_pos_of_loaded ((h.held c t).mp hne)
  omega

/-- When `stop` returns, only deliveries can be under way. -/
theorem pending_eq_zero_iff (h : s.Inv) (hstop : s.stop = .returned) :
    s.pending = 0 ↔ s.Quiet := by
  have hended : s.flush = .ended := h.ordered.ended (by rw [hstop]; decide)
  have hway : s.flush.underWay = false := by rw [hended]; rfl
  simp only [pending, hway, Quiet]
  simp [List.countP_eq_zero]

/-- When `stop` returns, the queue holds what the writer has missed. -/
theorem accepted_of_returned (h : s.Inv) (hstop : s.stop = .returned) :
    s.accepted = s.lines ++ s.items := by
  have hstored := h.stored
  rw [h.ordered.returned hstop] at hstored
  rw [hstored]
  show s.lines ++ [] ++ s.items = _
  rw [List.append_nil]

/-- Sound steps keep the counters right, and the queue empty once the writer has left
its loop. -/
theorem exact_of_sound {n : Nat} {as : List (Action ρ)}
    (h : Run (step codec path) (start n) as s)
    (hsound : Run.Along (step codec path) Sound (start n) as) :
    (∀ c, (s.tally c).Exact) ∧ (s.writer = .exited → s.items = []) := by
  have hall := Run.invariant_along
    (fun s : State ρ => s.Inv ∧ (∀ c, (s.tally c).Exact) ∧ (s.writer = .exited → s.items = []))
    (fun s a s' hs hstep hP => ⟨inv_step hs.1 hstep, exact_step hs.1.held hs.2.1 hP.1 hstep,
      emptied_step hs.1 hs.2.2 hP.2 hstep⟩) hsound h
  refine (hall ⟨inv_start n, ?_, ?_⟩).2
  · intro c
    cases c <;> exact Counter.exact_zero
  · intro _
    rfl

/-- A run with an unsound step ends with an item that the writer has missed, or with a
counter that stays behind. -/
theorem sound_of_accounted {n : Nat} {as : List (Action ρ)}
    (h : Run (step codec path) (start n) as s) (hmissed : ¬ s.Missed)
    (hcounters : ∀ c, ¬ (s.tally c).Doomed) :
    Run.Along (step codec path) Sound (start n) as := by
  -- A step that is not sound misses an item or dooms a counter, and both stay.
  refine Run.along_of_not Inv (fun s => s.Missed ∨ ∃ c, (s.tally c).Doomed)
    (fun s a s' hs hstep => inv_step hs hstep) ?_ ?_ h (inv_start n) ?_
  · intro s a s' hs hbad hstep
    rcases hbad with hbad | ⟨c, hbad⟩
    · exact Or.inl (missed_step hbad hstep)
    · exact Or.inr ⟨c, doomed_step hs.held hs.behind hbad hstep⟩
  · intro s a s' hs hstep hnot
    by_cases hund : s.Undisturbed a
    · have hputs : s.writer = .exited ∧ s.Puts a := by
        by_contra hno
        exact hnot ⟨hund, fun hexited hputs => hno ⟨hexited, hputs⟩⟩
      obtain ⟨hexited, hitems, -⟩ := items_of_exited hs hputs.1 hstep
      exact Or.inl ⟨hexited, hitems hputs.2⟩
    · exact Or.inr (doomed_of_disturbed hs.held hs.behind hund hstep)
  · rintro (hbad | ⟨c, hbad⟩)
    · exact hmissed hbad
    · exact hcounters c hbad

/-- When every item is accounted for at the return of `stop`, the writer has missed none of
them, the counters have every addition and nothing is under way. -/
theorem exact_of_accounted (h : s.Inv) (hstop : s.stop = .returned) (haccounted : s.Accounted) :
    s.items = [] ∧ (∀ c, (s.tally c).value = (s.tally c).added) ∧ s.pending = 0 := by
  obtain ⟨hlines, hoffered⟩ := haccounted
  have haccepted := accepted_of_returned h hstop
  have hcounted := h.counted
  rw [← hlines] at haccepted
  unfold Counted at hcounted
  rw [← hlines] at hcounted
  -- The counters are never ahead, so none is behind and nothing is under way.
  have hdropped : s.dropped.value ≤ s.dropped.added := (h.behind .dropped).value
  have herrors : s.callbackErrors.value ≤ s.callbackErrors.added :=
    (h.behind .callbackErrors).value
  refine ⟨List.self_eq_append_right.mp haccepted, fun c => ?_, by omega⟩
  cases c with
  | dropped =>
      show s.dropped.value = s.dropped.added
      omega
  | callbackErrors =>
      show s.callbackErrors.value = s.callbackErrors.added
      omega

/-- A run whose items are all accounted for had sound steps only. -/
theorem sound_and_quiet_of_accounted {n : Nat} {as : List (Action ρ)}
    (h : Run (step codec path) (start n) as s) (hstop : s.stop = .returned)
    (haccounted : s.Accounted) :
    Run.Along (step codec path) Sound (start n) as ∧ s.Quiet := by
  have hinv := inv_run h
  obtain ⟨hitems, hvalue, hpending⟩ := exact_of_accounted hinv hstop haccounted
  refine ⟨sound_of_accounted h (fun hmissed => hmissed.2 hitems) fun c hdoomed => ?_,
    (pending_eq_zero_iff hinv hstop).mp hpending⟩
  exact hdoomed.value_ne (idle_of_pending hinv hpending c) (hvalue c)

/-- After sound steps, with nothing under way, every item is accounted for. -/
theorem accounted_of_sound {n : Nat} {as : List (Action ρ)}
    (h : Run (step codec path) (start n) as s) (hstop : s.stop = .returned)
    (hsound : Run.Along (step codec path) Sound (start n) as) (hquiet : s.Quiet) :
    s.Accounted := by
  have hinv := inv_run h
  obtain ⟨hexact, hempty⟩ := exact_of_sound h hsound
  have hpending := (pending_eq_zero_iff hinv hstop).mpr hquiet
  have hlines : s.lines = s.accepted := by
    rw [accepted_of_returned hinv hstop, hempty (hinv.ordered.returned hstop), List.append_nil]
  have hdropped : s.dropped.value = s.dropped.added := (hexact .dropped).value
  have herrors : s.callbackErrors.value = s.callbackErrors.added := (hexact .callbackErrors).value
  have hcounted := hinv.counted
  unfold Counted at hcounted
  refine ⟨hlines, ?_⟩
  rw [hlines]
  omega

/-- **Every offered record is accounted for** when `stop` returns, if and only if every
step of the run was sound and no callback is under way. -/
theorem accounted_iff {n : Nat} {as : List (Action ρ)}
    (h : Run (step codec path) (start n) as s) (hstop : s.stop = .returned) :
    s.Accounted ↔ Run.Along (step codec path) Sound (start n) as ∧ s.Quiet := by
  constructor
  · intro haccounted
    exact sound_and_quiet_of_accounted h hstop haccounted
  · intro ⟨hsound, hquiet⟩
    exact accounted_of_sound h hstop hsound hquiet

/-- Only a live monitor has a callback that puts an item. -/
theorem live_of_puts (h : s.Inv) (hputs : s.Puts a) : ∃ m, s.live m = true := by
  cases a with
  | delivery k =>
      obtain ⟨d, row, hd, hpc, -⟩ := hputs
      refine ⟨d.monitor, ?_⟩
      have hway : d.underWay = true := by rw [Delivery.underWay, hpc]
      have hbusy : s.busy d.monitor = true :=
        busy_iff.mpr ⟨d, List.mem_of_getElem? hd, rfl, hway⟩
      by_contra hlive
      rw [h.allowed d.monitor (eq_false_of_ne_true hlive)] at hbusy
      cases hbusy
  | _ => exact hputs.elim

/-- After the flush thread has ended, no monitor is started or stopped. -/
theorem live_of_ended (hended : s.flush = .ended) (hstep : s.step codec path a = some s') :
    s'.flush = .ended ∧ ∀ m, s'.live m = s.live m := by
  -- Only the flush thread stops and starts monitors.
  cases a with
  | deliver m row =>
      obtain ⟨-, d, -, -, -, rfl⟩ := deliver_cases hstep
      exact ⟨hended, fun m => by cases m <;> rfl⟩
  | delivery k =>
      obtain ⟨d, -, hcases⟩ := delivery_cases hstep
      rcases hcases with ⟨_, -, -, rfl⟩ | ⟨_, -, -, rfl⟩ | ⟨-, rfl⟩ | ⟨-, rfl⟩ | ⟨_, -, rfl⟩ |
        ⟨_, -, rfl⟩
      all_goals exact ⟨hended, fun m => by cases m <;> rfl⟩
  | flush round hostTimeNs =>
      have hstep : s.flushStep codec path round hostTimeNs = some s' := hstep
      rw [flushStep, hended] at hstep
      cases hstep
  | writer =>
      rcases writer_cases hstep with ⟨_, rfl, -⟩ | ⟨_, _, -, -, rfl⟩ | ⟨_, -, rfl⟩
      all_goals exact ⟨hended, fun m => by cases m <;> rfl⟩
  | stop =>
      rcases stop_cases hstep with ⟨-, rfl⟩ | ⟨-, -, rfl⟩ | ⟨-, rfl⟩ | ⟨-, -, rfl⟩
      all_goals exact ⟨hended, fun m => by cases m <;> rfl⟩

/-- When the final stop has stopped both monitors, only lost additions can break the
accounting. -/
theorem accounted_iff_of_stopped {n : Nat} {as : List (Action ρ)}
    (h : Run (step codec path) (start n) as s) (hstop : s.stop = .returned)
    (hstopped : ∀ m, s.live m = false) :
    s.Accounted ↔ Run.Along (step codec path) (fun s a _ => s.Undisturbed a) (start n) as := by
  have hquiet : s.Quiet := by
    intro d hd
    by_contra hway
    have hbusy := busy_iff.mpr ⟨d, hd, rfl, eq_true_of_ne_false hway⟩
    rw [(inv_run h).allowed d.monitor (hstopped d.monitor)] at hbusy
    cases hbusy
  constructor
  · intro haccounted pre a post t t' heq hpre ha
    obtain ⟨hsound, -⟩ := sound_and_quiet_of_accounted h hstop haccounted
    exact (hsound pre a post t t' heq hpre ha).1
  · intro halong
    refine accounted_of_sound h hstop (fun pre a post t t' heq hpre ha => ?_) hquiet
    refine ⟨halong pre a post t t' heq hpre ha, fun hexited hputs => ?_⟩
    -- A monitor that is live at this step is live at the end.
    have ht := inv_run hpre
    obtain ⟨m, hlive⟩ := live_of_puts ht hputs
    have hended : t.flush = .ended := by
      have hdone := ht.ordered.done (ht.ordered.tested (Or.inr hexited))
      exact ht.ordered.ended (Nat.le_of_succ_le hdone)
    subst heq
    obtain ⟨u, hu, hrest⟩ := Run.append_iff.mp h
    obtain rfl := Run.deterministic hu hpre
    have hend := Run.invariant (fun s' : State ρ => s'.flush = .ended ∧ s'.live m = u.live m)
      (fun s a s' hs hstep => ?_) hrest ⟨hended, rfl⟩
    · rw [hlive, hstopped m] at hend
      cases hend.2
    · have hkeeps := live_of_ended hs.1 hstep
      exact ⟨hkeeps.1, (hkeeps.2 m).trans hs.2⟩

end State

/-! ### Runs -/

/-- The kernel monitor delivers a record, `stop` ends the threads and returns, and everything
is accounted for. -/
theorem accounted_delivery :
    let round : Round := ⟨none, .success, .success, .success, .success, .success⟩
    let flush : Action Nat := .flush round 1
    let as := [flush, flush, flush, .deliver .kernel (.ok 7), .delivery 0, flush, flush, flush,
      flush, .writer, .writer, .writer, .writer, .writer, .writer, .writer, .writer, .writer,
      .stop, flush, flush, flush, flush, flush, .stop, .stop, .writer, .writer, .writer, .writer,
      .writer, .writer, .stop]
    ∃ s, Run (State.step (fun _ => .ok []) "/home/enable_prof") (State.start 4) as s ∧
      s.stop = .returned ∧ s.Accounted ∧
      (s.Accounted ↔ Run.Along (State.step (fun _ => .ok []) "/home/enable_prof") State.Sound
        (State.start 4) as ∧ s.Quiet) :=
  ⟨_, rfl, rfl, ⟨rfl, rfl⟩, State.accounted_iff rfl rfl⟩

/-- `CommunicationMonitor.start` raises, so the final stop leaves the kernel monitor
on. Its callback delivers a record after the writer's last test, and the record is
neither in the file nor counted. -/
theorem late_delivery :
    ∃ (as : List (Action Nat)) (s : State Nat),
      Run (State.step (fun _ => .ok []) "/home/enable_prof") (State.start 4) as s ∧
        s.stop = .returned ∧ s.accepted = [.activity 7] ∧ s.lines = [] ∧ s.dropped.value = 0 ∧
        s.callbackErrors.value = 0 ∧ ¬ s.Accounted := by
  let round : Round := ⟨none, .success, .raised "RuntimeError: busy", .success, .success, .success⟩
  let flush : Action Nat := .flush round 1
  refine ⟨[flush, flush, flush, flush, .stop, flush, flush, .stop, .stop, .writer, .writer,
    .deliver .kernel (.ok 7), .delivery 0, .stop], _, rfl, rfl, rfl, rfl, rfl, rfl, ?_⟩
  intro hall
  cases hall.1

end HangAnalyzer.Capture
