import Mathlib.Data.List.Basic
import Mathlib.Data.List.Induction
import HangAnalyzer.Analyzer.Streams

/-!
# `HangAnalyzer.Proofs.Analyzer.Edges`: the edges of the dependency graph

The nodes are strings, so the first facts are that a string names one operation
(`nodeName_inj`). `mem_recordEdges` and `mem_dependencyEdges` then say exactly
which edges the two loops add.
-/

set_option autoImplicit false

namespace HangAnalyzer.Analyzer

open HangAnalyzer.Lib
open HangAnalyzer.Recorder (EventType Event)

/-! ### Names -/

/-- A number has no colon. -/
theorem colon_notMem_repr (n : Nat) : ':' ∉ n.repr.toList := by
  rw [Nat.toList_repr]
  intro hmem
  exact absurd (Nat.isDigit_of_mem_toDigits (by decide) (by decide) hmem) (by decide)

/-- A number is known by its digits. -/
theorem repr_inj {m n : Nat} (h : m.repr.toList = n.repr.toList) : m = n := by
  rw [Nat.toList_repr, Nat.toList_repr] at h
  have hdigits := congrArg (Nat.ofDigitChars 10 · 0) h
  simpa only [Nat.ofDigitChars_ten_toDigits] using hdigits

/-- A list is cut at the first occurrence of a character in one way. -/
theorem cut_inj {c : Char} {l l' r r' : List Char} (h : c ∉ l) (h' : c ∉ l')
    (heq : l ++ c :: r = l' ++ c :: r') : l = l' ∧ r = r' := by
  -- Neither text has the separator, so both are cut at the same place.
  induction l generalizing l' with
  | nil =>
      cases l' with
      | nil => exact ⟨rfl, (List.cons.inj heq).2⟩
      | cons d l' => exact absurd ((List.cons.inj heq).1 ▸ List.mem_cons_self) h'
  | cons d l ih =>
      cases l' with
      | nil => exact absurd ((List.cons.inj heq).1 ▸ List.mem_cons_self) h
      | cons d' l' =>
          obtain ⟨hd, htail⟩ := List.cons.inj heq
          obtain ⟨hl, hr⟩ := ih (fun hmem => h (List.mem_cons_of_mem _ hmem))
            (fun hmem => h' (List.mem_cons_of_mem _ hmem)) htail
          exact ⟨by rw [hd, hl], hr⟩

/-- The characters of a name. -/
theorem toList_nodeName (kind : String) (rank : Nat) (e : Event) :
    (nodeName kind rank e).toList = ('r' :: rank.repr.toList) ++
      ':' :: (('s' :: e.stream.repr.toList)
        ++ ':' :: (kind.toList ++ ':' :: e.seq.repr.toList)) := by
  simp [nodeName, String.toList_append]

/-- A name determines the kind of the operation, its rank, its stream and its
number. -/
theorem nodeName_inj {kind kind' : String} {rank rank' : Nat} {e e' : Event}
    (hkind : ':' ∉ kind.toList) (hkind' : ':' ∉ kind'.toList)
    (h : nodeName kind rank e = nodeName kind' rank' e') :
    kind = kind' ∧ rank = rank' ∧ e.stream = e'.stream ∧ e.seq = e'.seq := by
  -- The name is the rank, the stream, the kind and the number, cut at the colons.
  have hlist := congrArg String.toList h
  rw [toList_nodeName, toList_nodeName] at hlist
  have hr : ∀ n : Nat, ':' ∉ 'r' :: n.repr.toList := fun n => by
    simpa using colon_notMem_repr n
  have hs : ∀ n : Nat, ':' ∉ 's' :: n.repr.toList := fun n => by
    simpa using colon_notMem_repr n
  obtain ⟨hrank, hlist⟩ := cut_inj (hr _) (hr _) hlist
  obtain ⟨hstream, hlist⟩ := cut_inj (hs _) (hs _) hlist
  obtain ⟨hk, hseq⟩ := cut_inj hkind hkind' hlist
  exact ⟨String.toList_inj.mp hk, repr_inj (List.cons.inj hrank).2,
    repr_inj (List.cons.inj hstream).2, repr_inj hseq⟩

/-- The node of a wait tells its rank, stream and number. -/
theorem waitNode_inj {rank rank' : Nat} {e e' : Event}
    (h : waitNode rank e = waitNode rank' e') :
    rank = rank' ∧ e.stream = e'.stream ∧ e.seq = e'.seq :=
  (nodeName_inj (by decide) (by decide) h).2

/-- The node of a record tells its rank, stream and number. -/
theorem recordNode_inj {rank rank' : Nat} {e e' : Event}
    (h : recordNode rank e = recordNode rank' e') :
    rank = rank' ∧ e.stream = e'.stream ∧ e.seq = e'.seq :=
  (nodeName_inj (by decide) (by decide) h).2

/-- No wait has the node of a record. -/
theorem waitNode_ne_recordNode (rank rank' : Nat) (e e' : Event) :
    waitNode rank e ≠ recordNode rank' e' := by
  intro h
  exact absurd (nodeName_inj (by decide) (by decide) h).1 (by decide)

/-! ### Adding edges -/

/-- The successors after one more edge. -/
theorem mem_successors_addEdge {edges : Edges} {a b x y : String} :
    y ∈ successors (addEdge edges a b) x ↔ y ∈ successors edges x ∨ (x = a ∧ y = b) := by
  unfold successors addEdge
  rw [Dict.get?_update]
  -- The edge is added to the list of its own node, if it is not there yet.
  by_cases hx : x = a
  · subst hx
    rw [if_pos rfl, Option.getD_some]
    split
    · rename_i hmem
      constructor
      · exact Or.inl
      · rintro (hy | ⟨-, rfl⟩)
        · exact hy
        · exact hmem
    · simp
  · simp [hx]

/-- The successors after a loop that adds edges. -/
theorem mem_successors_foldl {β : Type} (f : Edges → β → Edges)
    (Adds : β → String → String → Prop)
    (hf : ∀ edges b x y, y ∈ successors (f edges b) x ↔ y ∈ successors edges x ∨ Adds b x y)
    (l : List β) (edges : Edges) (x y : String) :
    y ∈ successors (l.foldl f edges) x ↔
      y ∈ successors edges x ∨ ∃ b ∈ l, Adds b x y := by
  induction l generalizing edges with
  | nil => simp
  | cons b l ih =>
      rw [List.foldl_cons, ih, hf]
      simp only [List.mem_cons, exists_eq_or_imp, or_assoc]

/-! ### The edges of the records -/

/-- `x` is a record of the events, and `y` a wait of the same stream before it. -/
def RecordEdge (rank : Nat) (events : List Event) (x y : String) : Prop :=
  ∃ pre record post, events = pre ++ record :: post ∧ record.type = .eventRecord ∧
    ∃ wait ∈ pre, wait.type = .eventWait ∧ wait.stream = record.stream ∧
      x = recordNode rank record ∧ y = waitNode rank wait

/-- One more event: it is a record with the waits before it, or the edges are
those of the events before. -/
theorem recordEdge_concat {rank : Nat} {events : List Event} {e : Event} {x y : String} :
    RecordEdge rank (events ++ [e]) x y ↔ RecordEdge rank events x y ∨
      (e.type = .eventRecord ∧ ∃ wait ∈ events, wait.type = .eventWait ∧
        wait.stream = e.stream ∧ x = recordNode rank e ∧ y = waitNode rank wait) := by
  constructor
  · -- The last event is the record, or an earlier one is.
    rintro ⟨pre, record, post, heq, hrecord, hwait⟩
    rcases List.eq_nil_or_concat post with rfl | ⟨post, e', rfl⟩
    · obtain ⟨rfl, he⟩ := List.append_inj' heq rfl
      obtain rfl := (List.cons.inj he).1
      exact Or.inr ⟨hrecord, hwait⟩
    · rw [List.concat_eq_append, ← List.cons_append, ← List.append_assoc] at heq
      exact Or.inl ⟨pre, record, post, (List.append_inj' heq rfl).1, hrecord, hwait⟩
  · rintro (⟨pre, record, post, rfl, hrest⟩ | ⟨hrecord, hwait⟩)
    · exact ⟨pre, record, post ++ [e], by simp, hrest⟩
    · exact ⟨events, e, [], rfl, hrecord, hwait⟩

/-- The waits of a stream that `prior_waits` holds after the events. -/
def waitsOn (stream : Nat) (events : List Event) : List Event :=
  events.filter fun e => e.type = .eventWait && e.stream = stream

/-- What the loop over one rank's events has done after them. -/
theorem recordEdge_foldl (rank : Nat) (edges : Edges) (events : List Event) :
    (∀ stream, (((events.foldl (recordEdge rank) (.empty, edges)).1.get? stream).getD [])
        = waitsOn stream events) ∧
      ∀ x y, y ∈ successors (events.foldl (recordEdge rank) (.empty, edges)).2 x ↔
        y ∈ successors edges x ∨ RecordEdge rank events x y := by
  induction events using List.reverseRecOn with
  | nil =>
      refine ⟨fun stream => rfl, fun x y => ?_⟩
      simp [RecordEdge]
  | append_singleton events e ih =>
      obtain ⟨hprior, hedges⟩ := ih
      rw [List.foldl_concat]
      generalize events.foldl (recordEdge rank) (.empty, edges) = acc at hprior hedges ⊢
      obtain ⟨prior, edges'⟩ := acc
      simp only at hprior hedges
      -- A wait is held in `prior_waits`, a record gets its edges from there.
      simp only [recordEdge]
      split
      · rename_i hwait
        refine ⟨fun stream => ?_, fun x y => ?_⟩
        · simp only [Dict.get?_update]
          by_cases hs : stream = e.stream
          · subst hs
            simp [hprior, waitsOn, hwait]
          · simp [hs, hprior, waitsOn, Ne.symm hs]
        · simp [hedges, recordEdge_concat, hwait]
      · rename_i hwait
        have hsame : ∀ stream, waitsOn stream (events ++ [e]) = waitsOn stream events := by
          intro stream
          simp [waitsOn, hwait]
        split
        · rename_i hrecord
          refine ⟨fun stream => by rw [hsame, hprior], fun x y => ?_⟩
          have hfold := mem_successors_foldl
            (fun edges previous => addEdge edges (recordNode rank e) (waitNode rank previous))
            (fun previous x y => x = recordNode rank e ∧ y = waitNode rank previous)
            (fun edges previous x y => mem_successors_addEdge)
            ((prior.get? e.stream).getD []) edges' x y
          refine hfold.trans ?_
          simp only [hedges, hprior, recordEdge_concat, hrecord, true_and, waitsOn,
            List.mem_filter, Bool.and_eq_true, decide_eq_true_eq, or_assoc, and_assoc]
        · rename_i hrecord
          refine ⟨fun stream => by rw [hsame, hprior], fun x y => ?_⟩
          simp [hedges, recordEdge_concat, hrecord]

/-- The edges that start at records. -/
theorem mem_recordEdges {ranks : List (Nat × List Event)} {x y : String} :
    y ∈ successors (recordEdges ranks) x ↔
      ∃ item ∈ ranks, RecordEdge item.1 item.2 x y := by
  have hfold := mem_successors_foldl
    (fun edges (item : Nat × List Event) =>
      (item.2.foldl (recordEdge item.1) (.empty, edges)).2)
    (fun item x y => RecordEdge item.1 item.2 x y)
    (fun edges item x y => (recordEdge_foldl item.1 edges item.2).2 x y) ranks .empty x y
  refine hfold.trans ?_
  simp [successors]

/-! ### The edges of the waits -/

/-- `x` is a wait and `y` the record that the wait depends on. -/
def WaitEdge (producers : Dict (Nat × Nat) Event) (wait : Event) (x y : String) : Prop :=
  ∃ producer, producerOf producers wait = some producer ∧ x = waitNode wait.rank wait ∧
    y = recordNode wait.rank producer

/-- **The edges of the dependency graph.** -/
theorem mem_dependencyEdges {ranks : List (Nat × List Event)}
    {producers : Dict (Nat × Nat) Event} {waits : List Event} {x y : String} :
    y ∈ successors (dependencyEdges ranks producers waits) x ↔
      (∃ item ∈ ranks, RecordEdge item.1 item.2 x y) ∨
        ∃ wait ∈ waits, WaitEdge producers wait x y := by
  rw [dependencyEdges, mem_successors_foldl _ (WaitEdge producers), mem_recordEdges]
  intro edges wait x y
  unfold waitEdge WaitEdge
  cases producerOf producers wait with
  | none => simp
  | some producer => simp [mem_successors_addEdge]

end HangAnalyzer.Analyzer
