import HangAnalyzer.Proofs.Analyzer.Collectives

/-!
# `HangAnalyzer.Proofs.Analyzer.Scopes`: what the open host scopes show

`analyze` keeps one entry for each key of type, correlation id and stream. A
begin replaces the entry and an end removes it, so an entry is the last event of
its key, if that is a begin (`openAt_eq_some`).

The key has no thread and no communicator. `openScope_iff` says which begins the
single entry hides: those that are open when another scope of the same key
ends. `views_agree_iff` says when the open scopes and the collectives disagree:
when another communicator uses the operation id on the same stream.
-/

set_option autoImplicit false

namespace HangAnalyzer.Analyzer

open HangAnalyzer.Lib
open HangAnalyzer.Recorder

/-! ### The events of a key -/

/-- The key of an event as a begin. -/
def scopeKey (e : Event) : ScopeKey := (e.type, e.correlationId, e.stream)

/-- The event is a begin of the key. -/
def begins (key : ScopeKey) (e : Event) : Bool := opens e.type && scopeKey e = key

/-- The event is an end of the key. -/
def ends (key : ScopeKey) (e : Event) : Bool :=
  (beginOf e.type).any fun begin => (begin, e.correlationId, e.stream) = key

/-- No type both begins and ends a scope. -/
theorem beginOf_of_opens {t : EventType} (h : opens t = true) : beginOf t = none := by
  cases t <;> first | rfl | cases h

/-- No event both begins and ends a scope. -/
theorem ends_of_begins {key : ScopeKey} {e : Event} (h : begins key e = true) :
    ends key e = false := by
  rw [begins, Bool.and_eq_true] at h
  rw [ends, beginOf_of_opens h.1, Option.any_none]

/-- The lookup after one event. -/
theorem get?_scanPending (pending : Dict ScopeKey Event) (key : ScopeKey) (e : Event) :
    (scanPending pending e).get? key =
      if begins key e then some e else if ends key e then none else pending.get? key := by
  unfold scanPending
  -- A begin writes the entry of its key, and an end removes that of its begin.
  by_cases hopens : opens e.type = true
  · rw [if_pos hopens, Dict.get?_set]
    by_cases hkey : key = scopeKey e
    · simp [begins, scopeKey, hopens, hkey]
    · have hne : ¬ key = (e.type, e.correlationId, e.stream) := hkey
      rw [if_neg hne]
      simp [begins, ends, hopens, Ne.symm hkey, beginOf_of_opens hopens]
  · rw [if_neg hopens]
    have hbegins : begins key e = false := by simp [begins, hopens]
    rw [hbegins, ends]
    cases beginOf e.type with
    | none => simp
    | some begin =>
        show (pending.pop _).get? key = _
        rw [Dict.get?_pop]
        simp [eq_comm]

/-- The event begins or ends a scope of the key. -/
def touches (key : ScopeKey) (e : Event) : Bool := begins key e || ends key e

/-- The entry of a key after a log. -/
def openAt (events : List Event) (key : ScopeKey) : Option Event :=
  (events.foldl scanPending .empty).get? key

/-- **An entry.** It is the last event of the key, if that is a begin. -/
theorem openAt_eq (events : List Event) (key : ScopeKey) :
    openAt events key = (events.reverse.find? (touches key)).filter (begins key) := by
  -- The last event that touches the key decides, and the induction ends with it.
  induction events using List.reverseRecOn with
  | nil => rfl
  | append_singleton events e ih =>
      rw [openAt, List.foldl_concat, get?_scanPending, List.reverse_concat, List.find?_cons]
      show _ = Option.filter _ (match touches key e with | true => _ | false => _)
      by_cases hbegins : begins key e = true
      · simp [touches, hbegins, Option.filter]
      · by_cases hends : ends key e = true
        · simp [touches, hbegins, hends, Option.filter]
        · rw [if_neg hbegins, if_neg hends]
          simp only [touches, hbegins, hends]
          exact ih

/-- The last element that satisfies a test, with the list cut there. -/
theorem find?_reverse_eq_some {α : Type} {p : α → Bool} {l : List α} {a : α} :
    l.reverse.find? p = some a ↔
      p a = true ∧ ∃ pre post, l = pre ++ a :: post ∧ ∀ x ∈ post, p x = false := by
  -- The first element of the reversed list is the last one of the list.
  rw [List.find?_eq_some_iff_append]
  refine and_congr_right fun _ => ?_
  constructor
  · rintro ⟨pre, post, hsplit, hpre⟩
    refine ⟨post.reverse, pre.reverse, ?_, fun x hx => ?_⟩
    · rw [← List.reverse_reverse l, hsplit]
      simp
    · simpa using hpre x (List.mem_reverse.mp hx)
  · rintro ⟨pre, post, rfl, hpost⟩
    refine ⟨post.reverse, pre.reverse, by simp, fun x hx => ?_⟩
    simpa using hpost x (List.mem_reverse.mp hx)

/-- A scope is open at its last begin that no other event of the scope follows. -/
theorem openAt_eq_some {events : List Event} {key : ScopeKey} {e : Event} :
    openAt events key = some e ↔ begins key e = true ∧ ∃ pre post, events = pre ++ e :: post ∧
      ∀ x ∈ post, touches key x = false := by
  rw [openAt_eq, Option.filter_eq_some_iff, find?_reverse_eq_some]
  constructor
  · rintro ⟨⟨-, hsplit⟩, hbegins⟩
    exact ⟨hbegins, hsplit⟩
  · rintro ⟨hbegins, hsplit⟩
    exact ⟨⟨by rw [touches, hbegins, Bool.true_or], hsplit⟩, hbegins⟩

/-! ### Scopes that stay open -/

/-- The begins of a key that stay open: an end closes the latest of them, and no
begin if there is none. -/
def stillOpen (key : ScopeKey) (events : List Event) : List Event :=
  events.foldl (fun opened e =>
    if begins key e then opened ++ [e] else if ends key e then opened.dropLast else opened) []

/-- A begin is opened on top, and an end closes the one on top. -/
theorem stillOpen_concat (key : ScopeKey) (events : List Event) (e : Event) :
    stillOpen key (events ++ [e]) =
      if begins key e then stillOpen key events ++ [e]
      else if ends key e then (stillOpen key events).dropLast else stillOpen key events := by
  rw [stillOpen, List.foldl_concat, stillOpen]

/-- The begins of a list that exceed its ends. -/
def excess (key : ScopeKey) (l : List Event) : Int :=
  (l.countP (begins key) : Int) - l.countP (ends key)

/-- A begin adds one to the excess, and an end takes one away. -/
theorem excess_concat (key : ScopeKey) (l : List Event) (e : Event) :
    excess key (l ++ [e]) = excess key l +
      (if begins key e then 1 else if ends key e then -1 else 0) := by
  rw [excess, excess, List.countP_append, List.countP_append]
  -- A begin counts one more, an end one less, and no event is both.
  by_cases hbegins : begins key e = true
  · simp [hbegins, ends_of_begins hbegins]
    omega
  · by_cases hends : ends key e = true
    · simp [hbegins, hends]
      omega
    · simp [hbegins, hends]

/-- The suffixes of a longer list. -/
theorem exists_suffix_concat {α : Type} {l : List α} {a : α} {p : List α → Prop} :
    (∃ s, s <:+ l ++ [a] ∧ p s) ↔ p [] ∨ ∃ s, s <:+ l ∧ p (s ++ [a]) := by
  simp only [List.suffix_concat_iff]
  constructor
  · rintro ⟨s, rfl | ⟨t, rfl, ht⟩, hs⟩
    · exact Or.inl hs
    · exact Or.inr ⟨t, ht, hs⟩
  · rintro (hnil | ⟨t, ht, hs⟩)
    · exact ⟨[], Or.inl rfl, hnil⟩
    · exact ⟨t ++ [a], Or.inr ⟨t, rfl, ht⟩, hs⟩

/-- At least `n` begins stay open exactly when some last part of the log has `n`
more begins than ends. -/
theorem le_length_stillOpen (key : ScopeKey) (events : List Event) (n : Nat) :
    n ≤ (stillOpen key events).length ↔ ∃ s, s <:+ events ∧ (n : Int) ≤ excess key s := by
  induction events using List.reverseRecOn generalizing n with
  | nil =>
      have hnil : stillOpen key [] = [] := rfl
      have hzero : excess key [] = 0 := rfl
      simp [hnil, hzero]
  | append_singleton events e ih =>
      rw [exists_suffix_concat, stillOpen_concat]
      have hzero : excess key [] = 0 := rfl
      simp only [excess_concat, hzero]
      by_cases hbegins : begins key e = true
      · simp only [hbegins, if_true, List.length_append, List.length_singleton]
        cases n with
        | zero => simp
        | succ n =>
            rw [Nat.add_le_add_iff_right, ih]
            constructor
            · rintro ⟨s, hs, hle⟩
              exact Or.inr ⟨s, hs, by omega⟩
            · rintro (hle | ⟨s, hs, hle⟩)
              · omega
              · exact ⟨s, hs, by omega⟩
      · by_cases hends : ends key e = true
        · simp only [hbegins, hends, Bool.false_eq_true, if_false, if_true, List.length_dropLast]
          cases n with
          | zero => simp
          | succ n =>
              -- An end takes one begin away, so one more was open before it.
              have hmore := ih (n + 2)
              constructor
              · intro hle
                obtain ⟨s, hs, hexcess⟩ := hmore.mp (by omega)
                exact Or.inr ⟨s, hs, by omega⟩
              · rintro (hle | ⟨s, hs, hle⟩)
                · omega
                · have hlen := hmore.mpr ⟨s, hs, by omega⟩
                  omega
        · simp only [hbegins, hends, Bool.false_eq_true, if_false, Int.add_zero]
          rw [ih]
          constructor
          · exact Or.inr
          · rintro (hle | hs)
            · exact ⟨[], List.nil_suffix, hle⟩
            · exact hs

/-- Some end of the key is followed by no begin of it. -/
def Ended (key : ScopeKey) (events : List Event) : Prop :=
  ∃ pre e post, events = pre ++ e :: post ∧ ends key e = true ∧ ∀ x ∈ post, begins key x = false

/-- Some last part of the log has more begins of the key than ends. -/
def Exceeds (key : ScopeKey) (events : List Event) : Prop :=
  ∃ s, s <:+ events ∧ s.countP (ends key) < s.countP (begins key)

/-- A begin stays open exactly when from some point on there are more begins than ends. -/
theorem stillOpen_ne_nil_iff {key : ScopeKey} {events : List Event} :
    stillOpen key events ≠ [] ↔ Exceeds key events := by
  rw [← List.length_pos_iff, ← Nat.succ_le_iff, le_length_stillOpen]
  simp only [excess, Exceeds]
  refine exists_congr fun s => and_congr_right fun _ => ?_
  omega

/-- After an end there is no entry, however many begins are open. -/
theorem openAt_of_ended {key : ScopeKey} {events : List Event} (h : Ended key events) :
    openAt events key = none := by
  obtain ⟨pre, e, post, rfl, hends, hpost⟩ := h
  have hbegins : begins key e = false := by
    cases hb : begins key e with
    | false => rfl
    | true => rw [ends_of_begins hb] at hends; cases hends
  rw [openAt_eq, List.reverse_append, List.reverse_cons, List.append_assoc, List.find?_append]
  -- The last event that touches the key is no begin.
  cases hfind : post.reverse.find? (touches key) with
  | some x =>
      have hx := hpost x (List.mem_reverse.mp (List.mem_of_find?_eq_some hfind))
      simp [Option.filter, hx]
  | none => simp [touches, hends, Option.filter, hbegins]

/-- A log with an entry has a begin that stays open. -/
theorem exceeds_of_openAt {key : ScopeKey} {events : List Event} {e : Event}
    (h : openAt events key = some e) : Exceeds key events := by
  obtain ⟨hbegins, pre, post, rfl, hpost⟩ := openAt_eq_some.mp h
  refine ⟨e :: post, List.suffix_append _ _, ?_⟩
  -- After the begin that is open no end came.
  have hends : (e :: post).countP (ends key) = 0 := by
    rw [List.countP_eq_zero]
    intro x hx
    rcases List.mem_cons.mp hx with rfl | hmem
    · rw [ends_of_begins hbegins]
      exact Bool.false_ne_true
    · have htouch := hpost x hmem
      rw [touches, Bool.or_eq_false_iff] at htouch
      simp [htouch.2]
  rw [hends, List.countP_cons_of_pos hbegins]
  exact Nat.succ_pos _

/-- A log with begins and without an entry has an end after all of them. -/
theorem ended_of_exceeds {key : ScopeKey} {events : List Event} (h : Exceeds key events)
    (hnone : openAt events key = none) : Ended key events := by
  obtain ⟨s, hsuffix, hcount⟩ := h
  obtain ⟨b, hb, hbegins⟩ := List.countP_pos_iff.mp (Nat.lt_of_le_of_lt (Nat.zero_le _) hcount)
  rw [openAt_eq] at hnone
  cases hfind : events.reverse.find? (touches key) with
  | none =>
      -- The begin itself touches the key.
      have hb' := List.find?_eq_none.mp hfind b (List.mem_reverse.mpr (hsuffix.subset hb))
      rw [touches, hbegins, Bool.true_or] at hb'
      exact absurd rfl hb'
  | some e =>
      obtain ⟨htouch, pre, post, hsplit, hpost⟩ := find?_reverse_eq_some.mp hfind
      have hnot : begins key e = false := by
        rw [hfind] at hnone
        simpa [Option.filter] using hnone
      rw [touches, hnot, Bool.false_or] at htouch
      refine ⟨pre, e, post, hsplit, htouch, fun x hx => ?_⟩
      have hx' := hpost x hx
      rw [touches, Bool.or_eq_false_iff] at hx'
      exact hx'.1

/-- The entries of a rank's section with a key are the entry after its log. -/
theorem exists_outstanding_iff {data : Snapshot} {before : Scan} {rank : Nat} {key : ScopeKey} :
    (∃ e ∈ (rankReport data (scanRank before rank data.events)).outstandingHostScopes,
      scopeKey e = key) ↔ (openAt data.events key).isSome := by
  show (∃ e ∈ (scanRank before rank data.events).pending.values, scopeKey e = key) ↔ _
  rw [pending_scanRank, Option.isSome_iff_exists]
  simp only [Dict.mem_values]
  -- The entries are kept under the key of their begin.
  constructor
  · rintro ⟨e, ⟨k, hget⟩, hkey⟩
    have hbegins := (openAt_eq_some.mp hget).1
    rw [begins, Bool.and_eq_true, decide_eq_true_eq] at hbegins
    rw [← hbegins.2, hkey] at hget
    exact ⟨e, hget⟩
  · rintro ⟨e, hget⟩
    have hbegins := (openAt_eq_some.mp hget).1
    rw [begins, Bool.and_eq_true, decide_eq_true_eq] at hbegins
    exact ⟨e, ⟨key, hget⟩, hbegins.2⟩

/-- **Open scopes.** A rank's section has an entry of a key exactly when a begin of
the key stays open, unless an end of the key is followed by no begin of it
while some last part of the log has more begins of the key than ends. -/
theorem openScope_iff (order : SetOrder String) (files : List File)
    (expectedRanks : Option (Finset Int)) (communicatorId : Option Int) (rank : Nat)
    (report : RankReport)
    (hreport : (rank, report) ∈ (analyze order files expectedRanks communicatorId).ranks) :
    ∃ data, (selectRanks files).1.get? rank = some data ∧ ∀ key : ScopeKey,
      (((∃ e ∈ report.outstandingHostScopes, scopeKey e = key) ↔
          stillOpen key data.events ≠ []) ↔
        ¬ (Ended key data.events ∧ Exceeds key data.events)) := by
  obtain ⟨data, before, hdata, rfl⟩ := mem_reports hreport
  refine ⟨data, hdata, fun key => ?_⟩
  rw [exists_outstanding_iff, stillOpen_ne_nil_iff]
  -- A key that is still open beyond its last end is missing from the report.
  constructor
  · rintro hiff ⟨hended, hexceeds⟩
    have hsome := hiff.mpr hexceeds
    rw [openAt_of_ended hended] at hsome
    cases hsome
  · -- A key is hidden only after an end of its own.
    intro hnot
    constructor
    · intro hsome
      obtain ⟨e, he⟩ := Option.isSome_iff_exists.mp hsome
      exact exceeds_of_openAt he
    · intro hexceeds
      cases hget : openAt data.events key with
      | some e => rfl
      | none => exact absurd ⟨ended_of_exceeds hexceeds hget, hexceeds⟩ hnot

/-- A request that two threads, 101 and 102, have begun. -/
def sharedKey : List Call := [⟨1, 0, 42, 0, 0, 0, 10, 101⟩, ⟨1, 0, 42, 0, 0, 0, 11, 102⟩]

/-- While both threads are inside, the request is shown. -/
theorem openScope_shared :
    ∃ files data report, (selectRanks files).1.get? 0 = some data ∧
      (0, report) ∈ (analyze (.insertion String) files none none).ranks ∧
      ¬ Ended (.requestBegin, 42, 0) data.events ∧
      stillOpen (.requestBegin, 42, 0) data.events ≠ [] ∧
      ∃ e ∈ report.outstandingHostScopes, scopeKey e = (.requestBegin, 42, 0) := by
  obtain ⟨files, data, report, hget, hevents, hreport⟩ := exists_log sharedKey
  obtain ⟨data', hget', hkeys⟩ := openScope_iff _ _ _ _ _ _ hreport
  obtain rfl := Option.some.inj (hget.symm.trans hget')
  -- No event of the log ends a scope of this key.
  have hended : ¬ Ended (.requestBegin, 42, 0) data.events := by
    rintro ⟨pre, e, post, hsplit, hends, -⟩
    have he : e ∈ data.events := hsplit ▸ List.mem_append_right _ List.mem_cons_self
    have hnone : ∀ x ∈ data.events, ends (.requestBegin, 42, 0) x = false := by
      rw [hevents]
      decide
    rw [hnone e he] at hends
    cases hends
  have hopen : stillOpen (.requestBegin, 42, 0) data.events ≠ [] := by
    rw [hevents]
    decide
  exact ⟨files, data, report, hget, hreport, hended, hopen,
    ((hkeys _).mpr fun h => hended h.1).mpr hopen⟩

/-- When one of the threads returns, the other one's request is hidden. -/
theorem openScope_hidden :
    ∃ files data report, (selectRanks files).1.get? 0 = some data ∧
      (0, report) ∈ (analyze (.insertion String) files none none).ranks ∧
      stillOpen (.requestBegin, 42, 0) data.events ≠ [] ∧
      ¬ ∃ e ∈ report.outstandingHostScopes, scopeKey e = (.requestBegin, 42, 0) := by
  obtain ⟨files, data, report, hget, hevents, hreport⟩ :=
    exists_log [⟨1, 0, 42, 0, 0, 0, 10, 101⟩, ⟨1, 0, 42, 0, 0, 0, 11, 102⟩,
      ⟨2, 0, 42, 0, 0, 0, 12, 102⟩]
  obtain ⟨data', before, hget', rfl⟩ := mem_reports hreport
  obtain rfl := Option.some.inj (hget.symm.trans hget')
  refine ⟨files, data, _, hget, hreport, ?_, ?_⟩
  · rw [hevents]
    decide
  · rw [exists_outstanding_iff, hevents]
    decide

/-! ### The two views of a collective -/

/-- The event begins the operation `op` of the communicator `comm`. -/
def BeginsOp (comm op : Nat) (e : Event) : Prop :=
  e.type = .hcclBegin ∧ e.arg0 = comm ∧ e.correlationId = op

instance (comm op : Nat) (e : Event) : Decidable (BeginsOp comm op e) :=
  inferInstanceAs (Decidable (_ ∧ _))

/-- The event belongs to an operation of another communicator that has the same id on the
same stream as `e`. -/
def Foreign (e x : Event) : Prop :=
  (x.type = .hcclBegin ∨ x.type = .hcclEnd) ∧ x.arg0 ≠ e.arg0 ∧
    x.correlationId = e.correlationId ∧ x.stream = e.stream

/-- The log begins the operation and never ends it, and each of its begins is
followed by an event of another communicator with the same id on the same
stream. -/
structure Displaced (comm op : Nat) (events : List Event) : Prop where
  entered : ∃ e ∈ events, BeginsOp comm op e
  unfinished : endsIn comm op events = false
  displaced : ∀ pre e post, events = pre ++ e :: post → BeginsOp comm op e → ∃ x ∈ post, Foreign e x

/-- The events of a collective's scope. -/
theorem touches_hccl {op stream : Nat} {x : Event} :
    touches (.hcclBegin, op, stream) x = true ↔
      (x.type = .hcclBegin ∨ x.type = .hcclEnd) ∧ x.correlationId = op ∧ x.stream = stream := by
  obtain ⟨_, _, _, _, _, _, _, type, _, _, _, _⟩ := x
  cases type <;> simp [touches, begins, ends, opens, PAIRS, beginOf, scopeKey]

/-- The begins of a collective's scope. -/
theorem begins_hccl {op stream : Nat} {x : Event} :
    begins (.hcclBegin, op, stream) x = true ↔
      x.type = .hcclBegin ∧ x.correlationId = op ∧ x.stream = stream := by
  obtain ⟨_, _, _, _, _, _, _, type, _, _, _, _⟩ := x
  cases type <;> simp [begins, opens, PAIRS, scopeKey]

/-- In a log without an end of the operation, a begin of it that no foreign event
follows leaves an entry. -/
theorem openAt_of_undisturbed {comm op : Nat} {pre post : List Event} {e : Event}
    (hend : endsIn comm op (pre ++ e :: post) = false) (he : BeginsOp comm op e)
    (hpost : ∀ x ∈ post, ¬ Foreign e x) :
    ∃ b, openAt (pre ++ e :: post) (.hcclBegin, op, e.stream) = some b ∧ BeginsOp comm op b := by
  -- Every event of the key from `e` on is a begin of the operation.
  have hown : ∀ x ∈ e :: post, touches (.hcclBegin, op, e.stream) x = true →
      BeginsOp comm op x := by
    intro x hx htouch
    obtain ⟨htype, hop, hstream⟩ := touches_hccl.mp htouch
    rcases List.mem_cons.mp hx with rfl | hmem
    · exact he
    · have hcomm : x.arg0 = comm := by
        by_contra hne
        exact hpost x hmem ⟨htype, by rw [he.2.1]; exact hne, by rw [hop, he.2.2], hstream⟩
      rcases htype with hbegin | hend'
      · exact ⟨hbegin, hcomm, hop⟩
      · have hnot : endsIn comm op (pre ++ e :: post) = true :=
          List.any_eq_true.mpr ⟨x, List.mem_append_right _ hx, by simp [hend', hcomm, hop]⟩
        rw [hend] at hnot
        cases hnot
  have htouch : touches (.hcclBegin, op, e.stream) e = true :=
    touches_hccl.mpr ⟨Or.inl he.1, he.2.2, rfl⟩
  have hsome : ∃ b ∈ e :: post, (pre ++ e :: post).reverse.find?
      (touches (.hcclBegin, op, e.stream)) = some b := by
    rw [List.reverse_append, List.find?_append]
    cases hfind : (e :: post).reverse.find? (touches (.hcclBegin, op, e.stream)) with
    | some b => exact ⟨b, List.mem_reverse.mp (List.mem_of_find?_eq_some hfind), rfl⟩
    | none =>
        exact absurd htouch (List.find?_eq_none.mp hfind e (List.mem_reverse.mpr
          List.mem_cons_self))
  obtain ⟨b, hb, hfind⟩ := hsome
  have hbegins := hown b hb (List.find?_some hfind)
  have hkey := (touches_hccl.mp (List.find?_some hfind)).2
  refine ⟨b, ?_, hbegins⟩
  rw [openAt_eq, hfind, Option.filter, begins_hccl.mpr ⟨hbegins.1, hkey⟩, if_pos rfl]

/-- A rank that has begun an operation and not ended it shows the begin, unless the
operation is displaced. -/
theorem exists_openAt_iff {comm op : Nat} {events : List Event}
    (hentered : ∃ e ∈ events, BeginsOp comm op e) (hend : endsIn comm op events = false) :
    (∃ key e, openAt events key = some e ∧ BeginsOp comm op e) ↔ ¬ Displaced comm op events := by
  -- The operation is open, so no foreign event came after its begin.
  constructor
  · rintro ⟨key, e, hget, he⟩ hdisplaced
    obtain ⟨hbegins, pre, post, hsplit, hpost⟩ := openAt_eq_some.mp hget
    obtain ⟨x, hx, hforeign⟩ := hdisplaced.displaced pre e post hsplit he
    rw [begins, Bool.and_eq_true, decide_eq_true_eq] at hbegins
    have hnot := hpost x hx
    rw [← hbegins.2, scopeKey, he.1] at hnot
    have htouch := touches_hccl.mpr ⟨hforeign.1, hforeign.2.2⟩
    rw [hnot] at htouch
    cases htouch
  · -- Nothing foreign came after the begin, so it stays open.
    intro hnot
    by_contra hnone
    refine hnot ⟨hentered, hend, fun pre e post hsplit he => ?_⟩
    by_contra hforeign
    subst hsplit
    obtain ⟨b, hb, hop⟩ := openAt_of_undisturbed hend he fun x hx hx' => hforeign ⟨x, hx, hx'⟩
    exact hnone ⟨_, b, hb, hop⟩

/-- A rank that has ended an operation is in `end_observed`. -/
theorem mem_endObserved {ranks : Dict Nat Snapshot} {expectedRanks : Option (Finset Int)}
    {key : Nat × Nat} {members : Dict Nat Event} {rank : Nat} {data : Snapshot}
    (hdata : ranks.get? rank = some data) :
    rank ∈ (collective ranks expectedRanks (key, members)).endObserved ↔
      endsIn key.1 key.2 data.events = true := by
  obtain ⟨comm, op⟩ := key
  show rank ∈ List.mergeSort _ _ ↔ _
  rw [List.mem_mergeSort]
  simp only [List.mem_map, List.mem_filter, Prod.exists, Dict.mem_items, exists_and_right,
    exists_eq_right]
  -- The rank has one log, so the event is found in this one.
  constructor
  · rintro ⟨data', hdata', hends⟩
    obtain rfl := Option.some.inj (hdata.symm.trans hdata')
    exact hends
  · intro hends
    exact ⟨data, hdata, hends⟩

/-- A rank that has begun an operation is in `entered`. -/
theorem mem_entered_collective {ranks : Dict Nat Snapshot} {expectedRanks : Option (Finset Int)}
    {key : Nat × Nat} {members : Dict Nat Event} {rank : Nat} {data : Snapshot}
    (hget : (scanRanks ranks).1.groups.get? key = some members)
    (hdata : ranks.get? rank = some data) :
    rank ∈ (collective ranks expectedRanks (key, members)).entered ↔
      ∃ e ∈ data.events, BeginsOp key.1 key.2 e := by
  have hmem : rank ∈ entered (scanRanks ranks).1.groups key ↔ _ := mem_entered
  rw [entered, hget, Option.getD_some] at hmem
  show rank ∈ List.mergeSort _ _ ↔ _
  rw [List.mem_mergeSort, hmem]
  constructor
  · rintro ⟨data', hdata', e, he, htype, hkey⟩
    obtain rfl := Option.some.inj (hdata.symm.trans hdata')
    exact ⟨e, he, htype, congrArg Prod.fst hkey, congrArg Prod.snd hkey⟩
  · rintro ⟨e, he, htype, hcomm, hop⟩
    exact ⟨data, hdata, e, he, htype, Prod.ext hcomm hop⟩

/-- **The two views of a collective.** A rank that has entered a collective and not
ended it has the begin among its open scopes, unless its log begins the
operation, never ends it, and each begin is followed by an event of another
communicator with the same operation id on the same stream. -/
theorem views_agree_iff (order : SetOrder String) (files : List File)
    (expectedRanks : Option (Finset Int)) (communicatorId : Option Int) (c : Collective)
    (hc : c ∈ (analyze order files expectedRanks communicatorId).collectives) (rank : Nat)
    (report : RankReport)
    (hreport : (rank, report) ∈ (analyze order files expectedRanks communicatorId).ranks) :
    ∃ data, (selectRanks files).1.get? rank = some data ∧
      ((rank ∈ c.entered → rank ∉ c.endObserved → ∃ e ∈ report.outstandingHostScopes,
          BeginsOp c.communicatorId c.operationId e) ↔
        ¬ Displaced c.communicatorId c.operationId data.events) := by
  rw [(analyze_fields order files expectedRanks communicatorId).1] at hc
  obtain ⟨⟨comm, op⟩, members, hget, rfl⟩ := mem_collectives hc
  obtain ⟨data, before, hdata, rfl⟩ := mem_reports hreport
  refine ⟨data, hdata, ?_⟩
  show (_ → _ → ∃ e ∈ _, BeginsOp comm op e) ↔ ¬ Displaced comm op data.events
  -- The scopes of the report are the entries that are pending at the end.
  have hscopes : (∃ e ∈ (rankReport data (scanRank before rank data.events)).outstandingHostScopes,
      BeginsOp comm op e) ↔ ∃ key e, openAt data.events key = some e ∧ BeginsOp comm op e := by
    show (∃ e ∈ (scanRank before rank data.events).pending.values, _) ↔ _
    rw [pending_scanRank]
    simp only [Dict.mem_values]
    constructor
    · rintro ⟨e, ⟨key, hkey⟩, he⟩
      exact ⟨key, e, hkey, he⟩
    · rintro ⟨key, e, hkey, he⟩
      exact ⟨e, ⟨key, hkey⟩, he⟩
  rw [mem_entered_collective hget hdata, mem_endObserved hdata, hscopes]
  -- A displaced operation would have to be open.
  constructor
  · intro hviews hdisplaced
    have hopen := hviews hdisplaced.entered (by simp [hdisplaced.unfinished])
    exact (exists_openAt_iff hdisplaced.entered hdisplaced.unfinished).mp hopen hdisplaced
  · intro hnot hbegun hend
    exact (exists_openAt_iff hbegun (by simpa using hend)).mpr hnot

/-- The report about one log lists the operations the log begins. -/
theorem exists_log_collective (calls : List Call) (comm op : Nat)
    (hbegun : ∃ e ∈ (Ring.events ⟨100, 0, 0⟩ calls).drop
      (calls.length - Ring.retained 16 calls.length), BeginsOp comm op e) :
    ∃ files data report c, (selectRanks files).1.get? 0 = some data ∧
      data.events = (Ring.events ⟨100, 0, 0⟩ calls).drop
        (calls.length - Ring.retained 16 calls.length) ∧
      (0, report) ∈ (analyze (.insertion String) files none none).ranks ∧
      c ∈ (analyze (.insertion String) files none none).collectives ∧
      c.communicatorId = comm ∧ c.operationId = op ∧ 0 ∈ c.entered ∧
      (0 ∈ c.endObserved ↔ endsIn comm op data.events = true) := by
  obtain ⟨files, data, report, hget, hevents, hreport⟩ := exists_log calls
  obtain ⟨e, he, htype, hcomm, hop⟩ := hbegun
  have hentered : 0 ∈ entered (scanRanks (selectRanks files).1).1.groups (comm, op) :=
    mem_entered.mpr ⟨data, hget, e, hevents ▸ he, htype, Prod.ext hcomm hop⟩
  -- The operation was entered by rank 0, so there is a collective of it.
  obtain ⟨c, hc, hcomm', hop'⟩ := exists_collective none hentered
  obtain ⟨⟨comm', op'⟩, members, hmembers, rfl⟩ := mem_collectives hc
  obtain rfl : comm' = comm := hcomm'
  obtain rfl : op' = op := hop'
  exact ⟨files, data, report, _, hget, hevents, hreport, hc, rfl, rfl,
    (mem_entered_collective hmembers hget).mpr ⟨e, hevents ▸ he, htype, hcomm, hop⟩,
    mem_endObserved hget⟩

/-- Communicator 5 has its operation 9 before that of communicator 4 on the stream, and begins
it again on another stream. The collective of communicator 4 is among the open scopes. -/
theorem views_agree_apart :
    ∃ files c report, c ∈ (analyze (.insertion String) files none none).collectives ∧
      (0, report) ∈ (analyze (.insertion String) files none none).ranks ∧
      c.communicatorId = 4 ∧ 0 ∈ c.entered ∧ 0 ∉ c.endObserved ∧
      ∃ e ∈ report.outstandingHostScopes, BeginsOp c.communicatorId c.operationId e := by
  obtain ⟨files, data, report, c, hget, hevents, hreport, hc, hcomm, hop, hentered, hended⟩ :=
    exists_log_collective [⟨15, 1, 9, 5, 2, 0, 8, 102⟩, ⟨16, 1, 9, 5, 2, 0, 9, 102⟩, beginCall,
      ⟨15, 2, 9, 5, 2, 0, 11, 102⟩] 4 9 (by decide)
  obtain ⟨data', hget', hviews⟩ := views_agree_iff _ _ _ _ c hc 0 report hreport
  obtain rfl := Option.some.inj (hget.symm.trans hget')
  have hunended : 0 ∉ c.endObserved := by
    rw [hended, hevents]
    decide
  refine ⟨files, c, report, hc, hreport, hcomm, hentered, hunended,
    hviews.mpr ?_ hentered hunended⟩
  intro hdisplaced
  -- After the begin there is only the event of the other stream.
  have hsplit : data.events = [⟨8, 1, 100, 102, 0, 0, 1, .hcclBegin, 0, 9, 5, 2⟩,
      ⟨9, 2, 100, 102, 0, 0, 1, .hcclEnd, 0, 9, 5, 2⟩] ++ beginCall.event ⟨100, 0, 0⟩ 3 ::
        [⟨11, 4, 100, 102, 0, 0, 2, .hcclBegin, 0, 9, 5, 2⟩] := by
    rw [hevents]
    decide
  obtain ⟨x, hx, hforeign⟩ := hdisplaced.displaced _ _ _ hsplit (by rw [hcomm, hop]; decide)
  rw [List.mem_singleton.mp hx] at hforeign
  exact absurd hforeign.2.2 (by decide)

/-- When another communicator begins and ends its operation of the same id on the
same stream, the collective is unfinished and no open scope shows it. -/
theorem views_disagree :
    ∃ files c report, c ∈ (analyze (.insertion String) files none none).collectives ∧
      (0, report) ∈ (analyze (.insertion String) files none none).ranks ∧
      0 ∈ c.entered ∧ 0 ∉ c.endObserved ∧
      ¬ ∃ e ∈ report.outstandingHostScopes, BeginsOp c.communicatorId c.operationId e := by
  obtain ⟨files, data, report, c, hget, hevents, hreport, hc, hcomm, hop, hentered, hended⟩ :=
    exists_log_collective [beginCall, ⟨15, 1, 9, 5, 2, 0, 11, 102⟩, ⟨16, 1, 9, 5, 2, 0, 12, 102⟩]
      4 9 (by decide)
  refine ⟨files, c, report, hc, hreport, hentered, ?_, ?_⟩
  · rw [hended, hevents]
    decide
  · obtain ⟨data', before, hget', rfl⟩ := mem_reports hreport
    obtain rfl := Option.some.inj (hget.symm.trans hget')
    rintro ⟨e, he, -⟩
    have hnone : (scanRank before 0 data.events).pending.values = [] := by
      rw [pending_scanRank, hevents]
      decide
    have he' : e ∈ (scanRank before 0 data.events).pending.values := he
    rw [hnone] at he'
    cases he'

end HangAnalyzer.Analyzer
