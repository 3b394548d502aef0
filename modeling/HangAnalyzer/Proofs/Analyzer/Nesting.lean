import Mathlib.Data.List.Range
import HangAnalyzer.Proofs.Analyzer.Cycles
import HangAnalyzer.Proofs.Analyzer.Search

/-!
# `HangAnalyzer.Proofs.Analyzer.Nesting`: how deep `visit` nests

The search starts at the keys of the adjacency map, in the order in which the
two loops of `analyze` add them. `keys_streamGraph` says that these are the
records that come after a wait of their stream, and then the waits that have a
producer. So the depth of the search is a matter of the log alone
(`analyzeWithin_isSome_iff`): it is the length of the longest chain of dependent
operations from such a start that avoids what the earlier starts reach.

If each wait comes before the record of its event, the chain from the first start
runs forward through the whole log. `chain` is such a log, and with 501 streams
it has 1002 operations in one chain (`long_chain_exceeds_limit`).
-/

set_option autoImplicit false

namespace HangAnalyzer.Analyzer

open HangAnalyzer.Lib
open HangAnalyzer.Recorder

/-! ### The order of the keys -/

/-- An edge adds its source, when it is new. -/
@[simp] theorem keys_addEdge (edges : Edges) (a b : String) :
    (addEdge edges a b).keys = if a ∈ edges.keys then edges.keys else edges.keys ++ [a] :=
  Dict.keys_set _ _ _

/-- The edges of one node add the node to the keys. -/
theorem keys_foldl_addEdge {β : Type} (x : String) (f : β → String) (l : List β) (edges : Edges)
    (hnew : x ∉ edges.keys) :
    (l.foldl (fun edges b => addEdge edges x (f b)) edges).keys
      = edges.keys ++ if l = [] then [] else [x] := by
  have hkeep : ∀ (l : List β) (edges : Edges), x ∈ edges.keys →
      (l.foldl (fun edges b => addEdge edges x (f b)) edges).keys = edges.keys := by
    intro l
    induction l with
    | nil => exact fun edges _ => rfl
    | cons b l ih =>
        intro edges hmem
        have hkeys : (addEdge edges x (f b)).keys = edges.keys := by
          rw [keys_addEdge, if_pos hmem]
        rw [List.foldl_cons, ih _ (by rwa [hkeys]), hkeys]
  -- The first edge adds the key, and the others find it there.
  cases l with
  | nil => simp
  | cons b l =>
      have hkeys : (addEdge edges x (f b)).keys = edges.keys ++ [x] := by
        rw [keys_addEdge, if_neg hnew]
      rw [List.foldl_cons, hkeep _ _ (by rw [hkeys]; simp), hkeys]
      simp

/-- The records that come after a wait of their stream. -/
def recordStarts (events : List Event) : List Event :=
  events.filter fun e => e.type = .eventRecord &&
    events.any fun w => w.type = .eventWait && w.stream = e.stream && decide (w.seq < e.seq)

/-- The waits that have a producer. -/
def waitStarts (events : List Event) : List Event :=
  events.filter fun e => e.type = .eventWait && (lastRecord events e.correlationId).isSome

/-- One more event starts a search if it is a record after a wait of its stream. -/
theorem recordStarts_concat {events : List Event} {e : Event}
    (hlast : ∀ e' ∈ events, e'.seq < e.seq) :
    recordStarts (events ++ [e]) = recordStarts events ++
      if e.type = .eventRecord ∧ waitsOn e.stream events ≠ [] then [e] else [] := by
  have hold : ∀ e' ∈ events, ∀ w : Event,
      w ∈ events ++ [e] ∧ w.seq < e'.seq ↔ w ∈ events ∧ w.seq < e'.seq := by
    intro e' he' w
    rw [List.mem_append, List.mem_singleton]
    constructor
    · rintro ⟨hmem | rfl, hlt⟩
      · exact ⟨hmem, hlt⟩
      · exact absurd hlt (Nat.lt_asymm (hlast e' he'))
    · exact fun h => ⟨Or.inl h.1, h.2⟩
  -- The new event is the latest one, so it is no earlier wait of an event before it.
  rw [recordStarts, List.filter_append]
  congr 1
  · refine List.filter_congr fun e' he' => ?_
    rw [Bool.eq_iff_iff]
    simp only [Bool.and_eq_true, decide_eq_true_eq, List.any_eq_true]
    refine and_congr_right fun _ => exists_congr fun w => ?_
    have hw := hold e' he' w
    tauto
  · have hwaits : waitsOn e.stream events ≠ [] ↔
        ∃ w ∈ events, w.type = .eventWait ∧ w.stream = e.stream := by
      simp [waitsOn, List.filter_eq_nil_iff]
    by_cases hrecord : e.type = .eventRecord
    · by_cases hw : ∃ w ∈ events, w.type = .eventWait ∧ w.stream = e.stream
      · obtain ⟨w, hmem, htype, hstream⟩ := hw
        rw [if_pos ⟨hrecord, hwaits.mpr ⟨w, hmem, htype, hstream⟩⟩]
        refine List.filter_cons_of_pos ?_
        simp only [Bool.and_eq_true, decide_eq_true_eq, List.any_eq_true]
        exact ⟨hrecord, w, List.mem_append_left _ hmem, ⟨htype, hstream⟩, hlast w hmem⟩
      · rw [if_neg fun h => hw (hwaits.mp h.2)]
        refine List.filter_cons_of_neg ?_
        simp only [Bool.and_eq_true, decide_eq_true_eq, List.any_eq_true]
        rintro ⟨-, w, hmem, ⟨htype, hstream⟩, hlt⟩
        rcases List.mem_append.mp hmem with hmem | hself
        · exact hw ⟨w, hmem, htype, hstream⟩
        · exact absurd hlt (List.mem_singleton.mp hself ▸ Nat.lt_irrefl _)
    · rw [if_neg fun h => hrecord h.1]
      refine List.filter_cons_of_neg ?_
      simp [hrecord]

/-- The keys after the loop over one rank's events. -/
theorem keys_recordEdge_foldl {rank : Nat} {edges : Edges} (events : List Event)
    (hsorted : events.Pairwise fun a b => a.seq < b.seq)
    (hnew : ∀ e, recordNode rank e ∉ edges.keys) :
    (events.foldl (recordEdge rank) (.empty, edges)).2.keys
      = edges.keys ++ (recordStarts events).map (recordNode rank) := by
  induction events using List.reverseRecOn with
  | nil => simp [recordStarts]
  | append_singleton events e ih =>
      rw [List.pairwise_append] at hsorted
      have hlast : ∀ e' ∈ events, e'.seq < e.seq := fun e' he' =>
        hsorted.2.2 e' he' e List.mem_cons_self
      have hkeys := ih hsorted.1
      have hprior := (recordEdge_foldl rank edges events).1
      rw [List.foldl_concat, recordStarts_concat hlast]
      generalize events.foldl (recordEdge rank) (.empty, edges) = acc at hkeys hprior ⊢
      obtain ⟨prior, edges'⟩ := acc
      simp only at hkeys hprior
      simp only [recordEdge]
      split
      · rename_i hwait
        rw [hkeys, if_neg (by simp [hwait]), List.append_nil]
      · split
        · rename_i hrecord
          -- The name of the record is new: the numbers before it are smaller.
          have hfresh : recordNode rank e ∉ edges'.keys := by
            rw [hkeys, List.mem_append, List.mem_map]
            rintro (hmem | ⟨e', he', heq⟩)
            · exact hnew e hmem
            · have hlt := hlast e' (List.mem_of_mem_filter he')
              rw [(recordNode_inj heq).2.2] at hlt
              exact Nat.lt_irrefl _ hlt
          rw [hprior, keys_foldl_addEdge _ _ _ _ hfresh, hkeys, List.map_append, List.append_assoc]
          by_cases hnil : waitsOn e.stream events = []
          · simp [hnil]
          · simp [hnil, hrecord]
        · rename_i hrecord
          rw [hkeys, if_neg fun h => hrecord h.1, List.append_nil]

/-- The keys after the loop over the records of all ranks. -/
theorem keys_recordEdges {items : List (Nat × Snapshot)} (hnodup : (items.map Prod.fst).Nodup) :
    (recordEdges (items.map fun item => (item.1, item.2.events))).keys
      = items.flatMap fun item => (recordStarts item.2.events).map (recordNode item.1) := by
  unfold recordEdges
  induction items using List.reverseRecOn with
  | nil => rfl
  | append_singleton items item ih =>
      rw [List.map_append, List.nodup_append] at hnodup
      have hkeys := ih hnodup.1
      rw [List.map_append, List.map_cons, List.map_nil, List.foldl_concat,
        keys_recordEdge_foldl _ item.2.sorted, hkeys]
      · simp
      · -- The node carries its rank, and the ranks are all different.
        intro e hmem
        rw [hkeys, List.mem_flatMap] at hmem
        obtain ⟨item', hitem', hmem⟩ := hmem
        obtain ⟨e', -, heq⟩ := List.mem_map.mp hmem
        exact hnodup.2.2 item'.1 (List.mem_map_of_mem hitem') item.1 (by simp)
          (recordNode_inj heq).1

/-- The keys after the loop over the waits. -/
theorem keys_waitEdge_foldl {producers : Dict (Nat × Nat) Event} {edges : Edges}
    (waits : List Event) (hnodup : (waits.map fun w => waitNode w.rank w).Nodup)
    (hnew : ∀ w, waitNode w.rank w ∉ edges.keys) :
    (waits.foldl (waitEdge producers) edges).keys
      = edges.keys ++ (waits.filter fun w => (producerOf producers w).isSome).map
          fun w => waitNode w.rank w := by
  induction waits using List.reverseRecOn with
  | nil => simp
  | append_singleton waits w ih =>
      rw [List.map_append, List.nodup_append] at hnodup
      have hkeys := ih hnodup.1
      rw [List.foldl_concat, waitEdge]
      cases hproducer : producerOf producers w with
      | none => simp [hkeys, hproducer]
      -- The wait adds a key of its own, for no two waits have one node.
      | some producer =>
          have hfresh : waitNode w.rank w ∉ (waits.foldl (waitEdge producers) edges).keys := by
            rw [hkeys, List.mem_append, not_or]
            refine ⟨hnew w, fun hmem => ?_⟩
            obtain ⟨w', hw', heq⟩ := List.mem_map.mp hmem
            exact hnodup.2.2 _ (List.mem_map_of_mem (List.mem_of_mem_filter hw')) _ (by simp) heq
          rw [keys_addEdge, if_neg hfresh, hkeys]
          simp [hproducer]

/-- The operations at which the search starts, in its order. -/
def starts (ranks : Dict Nat Snapshot) : List String :=
  (ranks.items.flatMap fun item => (recordStarts item.2.events).map (recordNode item.1)) ++
    (sortedItems ranks).flatMap fun item => (waitStarts item.2.events).map (waitNode item.1)

section
variable {order : SetOrder String} {ranks : Dict Nat Snapshot}

/-- The waits of all ranks have names of their own. -/
theorem nodup_waitNodes (hrank : OwnRank ranks) :
    ((scanRanks ranks).1.waits.map fun w => waitNode w.rank w).Nodup := by
  have hitems : (sortedItems ranks).Pairwise fun a b => a.1 ≠ b.1 := by
    have hnodup := ((sortedItems_perm ranks).map Prod.fst).nodup_iff.mpr ranks.nodup
    exact List.pairwise_map.mp hnodup
  have hown : ∀ item ∈ sortedItems ranks, ∀ w ∈ item.2.events, w.rank = item.1 :=
    fun item hitem => hrank item.1 item.2
      (Dict.mem_items.mp ((sortedItems_perm ranks).mem_iff.mp hitem))
  rw [waits_scanRanks, List.Nodup, List.pairwise_map, List.pairwise_flatMap]
  constructor
  · -- Within a rank the sequence numbers are different.
    intro item _
    refine (item.2.sorted.filter _).imp fun hlt heq => ?_
    rw [(waitNode_inj heq).2.2] at hlt
    exact Nat.lt_irrefl _ hlt
  · -- Two ranks differ in the node already.
    refine hitems.imp_of_mem fun {a b} ha hb hne w hw w' hw' heq => ?_
    have hw := hown a ha w (List.mem_of_mem_filter hw)
    have hw' := hown b hb w' (List.mem_of_mem_filter hw')
    exact hne (hw ▸ hw' ▸ (waitNode_inj heq).1)

/-- **The order of the search.** -/
theorem keys_streamGraph (hrank : OwnRank ranks) :
    (streamGraph order ranks (scanRanks ranks).1).keys = starts ranks := by
  have hrecords := keys_recordEdges ranks.nodup
  show (dependencyEdges _ _ _).keys = _
  rw [dependencyEdges, keys_waitEdge_foldl _ (nodup_waitNodes hrank), hrecords, starts,
    waits_scanRanks, List.filter_flatMap, List.map_flatMap]
  · congr 1
    -- Rank by rank, a wait has a producer exactly when its event has a last record.
    refine List.flatMap_congr fun item hitem => ?_
    have hdata := Dict.mem_items.mp ((sortedItems_perm ranks).mem_iff.mp hitem)
    have hown := hrank item.1 item.2 hdata
    rw [List.filter_filter, waitStarts]
    have hfilter : item.2.events.filter (fun e =>
          (producerOf (scanRanks ranks).1.eventProducers e).isSome && decide (e.type = .eventWait))
        = item.2.events.filter fun e =>
          decide (e.type = .eventWait) && (lastRecord item.2.events e.correlationId).isSome := by
      refine List.filter_congr fun e he => ?_
      rw [producerOf, hown e he, get?_eventProducers hdata, Bool.and_comm]
    rw [hfilter]
    refine List.map_congr_left fun e he => ?_
    rw [hown e (List.mem_of_mem_filter he)]
  · intro w hmem
    rw [hrecords, List.mem_flatMap] at hmem
    obtain ⟨item, -, hmem⟩ := hmem
    obtain ⟨e, -, heq⟩ := List.mem_map.mp hmem
    exact waitNode_ne_recordNode _ _ _ _ heq.symm

/-- A chain of dependent operations from a start, without a repetition and without an
operation that an earlier start reaches, has at most `n` operations. -/
def ShortChains (ranks : Dict Nat Snapshot) (n : Nat) : Prop :=
  ∀ pre start post chain, starts ranks = pre ++ start :: post → (start :: chain).Nodup →
    (start :: chain).IsChain (OpEdge ranks) →
    (∀ earlier ∈ pre, ∀ x ∈ start :: chain, ¬ Relation.ReflTransGen (OpEdge ranks) earlier x) →
    (start :: chain).length ≤ n

/-- The stream graph is shallow exactly when the chains of waits are short. -/
theorem shallow_streamGraph_iff (hrank : OwnRank ranks) {n : Nat} :
    (streamGraph order ranks (scanRanks ranks).1).Shallow n ↔ ShortChains ranks n := by
  have hedge : (streamGraph order ranks (scanRanks ranks).1).Edge = OpEdge ranks := by
    funext x y
    exact propext (edge_streamGraph order hrank)
  rw [Graph.Shallow, ShortChains, hedge, keys_streamGraph hrank]

end

/-- The node of an event that is a wait or a record. -/
def opNode (rank : Nat) (e : Event) : String :=
  if e.type = .eventWait then waitNode rank e else recordNode rank e

/-- On a single rank, a chain has at most one operation more than there are events. -/
theorem shortChains_of_length {ranks : Dict Nat Snapshot} {rank : Nat} {data : Snapshot}
    (honly : ∀ k d, ranks.get? k = some d → k = rank ∧ d = data) {n : Nat}
    (hn : data.events.length < n) : ShortChains ranks n := by
  -- A node with a successor is an event of the one log.
  have hnode : ∀ x y, OpEdge ranks x y → x ∈ data.events.map (opNode rank) := by
    intro x y h
    cases h with
    | @record k d record wait hdata hrecord hrecordType =>
        obtain ⟨rfl, rfl⟩ := honly k d hdata
        refine List.mem_map.mpr ⟨record, hrecord, ?_⟩
        rw [opNode, if_neg (by simp [hrecordType])]
    | @wait k d wait producer hdata hwait hwaitType =>
        obtain ⟨rfl, rfl⟩ := honly k d hdata
        refine List.mem_map.mpr ⟨wait, hwait, ?_⟩
        rw [opNode, if_pos hwaitType]
  intro pre start post chain _ hnodup hwalk _
  have hops : ∀ x ∈ (start :: chain).dropLast, x ∈ data.events.map (opNode rank) := by
    intro x hx
    obtain ⟨y, hedge⟩ := exists_edge_of_isChain hwalk x hx
    exact hnode x y hedge
  -- A chain without repetition is no longer than the log.
  have hle := (hnodup.sublist (List.dropLast_sublist _)).length_le_of_subset hops
  rw [List.length_dropLast, List.length_map] at hle
  omega

/-- **The nesting of the search.** With at most `limit` nested visits `analyze`
returns a report in every order of the sets exactly when no chain of dependent
operations is longer. -/
theorem analyzeWithin_isSome_iff (limit : Nat) (files : List File)
    (expectedRanks : Option (Finset Int)) (communicatorId : Option Int)
    (hrank : OwnRank (selectRanks files).1) :
    (∀ order, (analyzeWithin limit order files expectedRanks communicatorId).isSome) ↔
      ShortChains (selectRanks files).1 limit :=
  (analyzeWithin_isSome_iff_shallow limit files expectedRanks communicatorId).trans
    (shallow_streamGraph_iff hrank)

/-- A report of one hand-off, whatever the order of the sets. -/
theorem analyzeWithin_handoff :
    ∃ r', recordCalls (some ⟨initRing 0 0 16 ⟨none, none, none, 100, 5, 7⟩, 16, 100⟩) 100 handoff
        = some r' ∧
      ∀ order,
        (analyzeWithin RECURSION_LIMIT order [("r0.flight", .ok r'.file)] none none).isSome := by
  have hinit : flightInit none (some "r0.flight") 0 0 16 ⟨none, none, none, 100, 5, 7⟩
      = .ok ⟨initRing 0 0 16 ⟨none, none, none, 100, 5, 7⟩, 16, 100⟩ := rfl
  obtain ⟨r', s, hr', hown, hget, hevents⟩ := selectRanks_recordCalls hinit handoff "r0.flight"
  refine ⟨r', hr', (analyzeWithin_isSome_iff _ _ _ _ hown).mpr ?_⟩
  have honly : ∀ k d, (selectRanks [("r0.flight", .ok r'.file)]).1.get? k = some d →
      k = 0 ∧ d = s := by
    intro k d hd
    rw [hget] at hd
    split at hd
    · rename_i hk
      exact ⟨hk, (Option.some.inj hd).symm⟩
    · cases hd
  -- The log has four events, which is far below the limit.
  refine shortChains_of_length honly ?_
  rw [hevents]
  decide

/-! ### A long chain -/

/-- The calls number `2 * i` and `2 * i + 1`: stream `i` waits for event `i + 1`,
and then records event `i`. -/
def linkCall (k : Nat) : Call where
  type := if k % 2 = 0 then 18 else 17
  stream := .ofNat (k / 2)
  correlation := .ofNat (if k % 2 = 0 then k / 2 + 1 else k / 2)
  arg0 := 0
  arg1 := 0
  flags := 0
  timestampNs := .ofNat k
  tid := 101

/-- `n` streams of which each waits for the next. -/
def links (n : Nat) : List Call := (List.range (2 * n)).map linkCall

/-- The event of a call of `links`. -/
def linkEvent (k : Nat) : Event := (linkCall k).event ⟨100, 0, 0⟩ (Ring.seqAt k)

/-- The operations of `links` as the search follows them: each record, and then the
wait before it. -/
def linkNode (m : Nat) : String :=
  if m % 2 = 0 then recordNode 0 (linkEvent (m + 1)) else waitNode 0 (linkEvent (m - 1))

section
variable {k : Nat}

/-- The events of the chain are numbered from one. -/
theorem linkEvent_seq (hk : k < 2 ^ 26) : (linkEvent k).seq = k + 1 := by
  show (k + 1) % 2 ^ 64 = k + 1
  omega

/-- There are two events on each stream of the chain. -/
theorem linkEvent_stream (hk : k < 2 ^ 26) : (linkEvent k).stream = k / 2 := by
  show k / 2 % 2 ^ 32 = k / 2
  omega

/-- A stream of the chain first waits and then records. -/
theorem linkEvent_type : (linkEvent k).type = if k % 2 = 0 then .eventWait else .eventRecord := by
  unfold linkEvent linkCall Call.event
  split <;> rfl

/-- A stream of the chain records its own id and waits for that of the next one. -/
theorem linkEvent_correlationId (hk : k < 2 ^ 26) :
    (linkEvent k).correlationId = if k % 2 = 0 then k / 2 + 1 else k / 2 := by
  show (UInt64.ofNat _).toNat = _
  rw [UInt64.toNat_ofNat']
  split <;> omega

/-- The events at even positions wait. -/
theorem type_eq_eventWait : (linkEvent k).type = .eventWait ↔ k % 2 = 0 := by
  rw [linkEvent_type]
  split <;> simp [*]

/-- The events at odd positions record. -/
theorem type_eq_eventRecord : (linkEvent k).type = .eventRecord ↔ k % 2 = 1 := by
  rw [linkEvent_type]
  split
  · simp [*]
  · simp
    omega

end

/-- The only record of an event id is the last one. -/
theorem lastRecord_eq {events : List Event} {id : Nat} {record : Event} (hmem : record ∈ events)
    (htype : record.type = .eventRecord) (hid : record.correlationId = id)
    (honly : ∀ e ∈ events, e.type = .eventRecord → e.correlationId = id → e = record) :
    lastRecord events id = some record := by
  have hin : record ∈ events.filter fun e => e.type = .eventRecord && e.correlationId = id := by
    simp [hmem, htype, hid]
  cases hlast : lastRecord events id with
  | none => exact absurd (List.getLast?_eq_none_iff.mp hlast) (List.ne_nil_of_mem hin)
  | some e =>
      have he := List.mem_of_getLast? hlast
      simp only [List.mem_filter, Bool.and_eq_true, decide_eq_true_eq] at he
      rw [honly e he.1 he.2.1 he.2.2]

section
variable {n : Nat} {ranks : Dict Nat Snapshot} {data : Snapshot}

/-- The event `i + 1` is recorded once. -/
theorem lastRecord_links (hn : 2 * n ≤ 2 ^ 26)
    (hevents : data.events = (List.range (2 * n)).map linkEvent)
    {i : Nat} (hi : 2 * i + 1 < 2 * n) :
    lastRecord data.events i = some (linkEvent (2 * i + 1)) := by
  -- Every id is recorded once, so the last record is the only one.
  refine lastRecord_eq ?_ (type_eq_eventRecord.mpr (by omega)) ?_ ?_
  · rw [hevents]
    exact List.mem_map_of_mem (List.mem_range.mpr hi)
  · rw [linkEvent_correlationId (by omega), if_neg (by omega)]
    omega
  · intro e he htype hid
    rw [hevents] at he
    obtain ⟨k, hk, rfl⟩ := List.mem_map.mp he
    rw [List.mem_range] at hk
    rw [type_eq_eventRecord] at htype
    rw [linkEvent_correlationId (by omega), if_neg (by omega)] at hid
    rw [show k = 2 * i + 1 by omega]

/-- Each operation of `links` depends on the next one, and on no other. -/
theorem opEdge_linkNode (hn : 2 * n ≤ 2 ^ 26) (hdata : ranks.get? 0 = some data)
    (hevents : data.events = (List.range (2 * n)).map linkEvent) {m : Nat} (hm : m + 1 < 2 * n)
    (y : String) : OpEdge ranks (linkNode m) y ↔ y = linkNode (m + 1) := by
  have hmem : ∀ k < 2 * n, linkEvent k ∈ data.events := by
    intro k hk
    rw [hevents]
    exact List.mem_map_of_mem (List.mem_range.mpr hk)
  unfold linkNode
  by_cases heven : m % 2 = 0
  · -- From a record there is one wait of its stream to go to.
    rw [if_pos heven, if_neg (by omega), Nat.add_sub_cancel]
    constructor
    · intro h
      obtain ⟨wait, hwait, htype, hstream, -, rfl⟩ := h.of_recordNode hdata (hmem (m + 1) hm)
      rw [hevents] at hwait
      obtain ⟨k, hk, rfl⟩ := List.mem_map.mp hwait
      rw [List.mem_range] at hk
      rw [type_eq_eventWait] at htype
      rw [linkEvent_stream (by omega), linkEvent_stream (by omega)] at hstream
      rw [show k = m by omega]
    · rintro rfl
      refine .record hdata (hmem (m + 1) hm) (type_eq_eventRecord.mpr (by omega))
        (hmem m (by omega)) (type_eq_eventWait.mpr heven) ?_ ?_
      · rw [linkEvent_stream (by omega), linkEvent_stream (by omega)]
        omega
      · rw [linkEvent_seq (by omega), linkEvent_seq (by omega)]
        omega
  · -- From a wait there is the one record of its event to go to.
    have hproducer := lastRecord_links hn hevents (i := m / 2 + 1) (by omega)
    have hid : (linkEvent (m - 1)).correlationId = m / 2 + 1 := by
      rw [linkEvent_correlationId (by omega), if_pos (by omega)]
      omega
    rw [if_neg heven, if_pos (by omega)]
    have hindex : 2 * (m / 2 + 1) + 1 = m + 1 + 1 := by omega
    rw [hindex, ← hid] at hproducer
    constructor
    · intro h
      obtain ⟨-, producer, hlast, rfl⟩ := h.of_waitNode hdata (hmem (m - 1) (by omega))
      rw [Option.some.inj (hproducer.symm.trans hlast)]
    · rintro rfl
      exact .wait hdata (hmem (m - 1) (by omega)) (type_eq_eventWait.mpr (by omega)) hproducer

/-- The operations of `links` are distinct. -/
theorem linkNode_inj {m m' : Nat} (hm : m < 2 ^ 26 - 1) (hm' : m' < 2 ^ 26 - 1)
    (h : linkNode m = linkNode m') : m = m' := by
  unfold linkNode at h
  -- A record and a wait never have the same node.
  split at h
  · split at h
    · have hseq := (recordNode_inj h).2.2
      rw [linkEvent_seq (by omega), linkEvent_seq (by omega)] at hseq
      omega
    · exact absurd h.symm (waitNode_ne_recordNode _ _ _ _)
  · split at h
    · exact absurd h (waitNode_ne_recordNode _ _ _ _)
    · have hseq := (waitNode_inj h).2.2
      rw [linkEvent_seq (by omega), linkEvent_seq (by omega)] at hseq
      omega

/-- The search starts at the first record of `links`. -/
theorem starts_links (hn : 2 ≤ 2 * n) (hn' : 2 * n ≤ 2 ^ 26)
    (hranks : ∀ k, ranks.get? k = if k = 0 then some data else none)
    (hevents : data.events = (List.range (2 * n)).map linkEvent) :
    ∃ post, starts ranks = linkNode 0 :: post := by
  have hrecords : ∃ rest, recordStarts data.events = linkEvent 1 :: rest := by
    obtain ⟨l, hl⟩ : ∃ l, (List.range (2 * n)).map linkEvent = linkEvent 0 :: linkEvent 1 :: l := by
      obtain ⟨m, hm⟩ : ∃ m, 2 * n = 2 + m := ⟨2 * n - 2, by omega⟩
      rw [hm, List.range_add, List.map_append]
      exact ⟨_, rfl⟩
    rw [recordStarts, hevents, hl, List.filter_cons_of_neg, List.filter_cons_of_pos]
    · exact ⟨_, rfl⟩
    · simp only [Bool.and_eq_true, decide_eq_true_eq, List.any_eq_true]
      refine ⟨type_eq_eventRecord.mpr rfl, linkEvent 0, List.mem_cons_self, ⟨?_, rfl⟩, by decide⟩
      exact type_eq_eventWait.mpr rfl
    · rw [Bool.not_eq_true, Bool.and_eq_false_iff]
      exact Or.inl (decide_eq_false (type_eq_eventRecord.not.mpr (by decide)))
  obtain ⟨rest, hrecords⟩ := hrecords
  have hget : ranks.get? 0 = some data := hranks 0
  -- The only rank is the first one.
  cases hitems : ranks.items with
  | nil =>
      rw [← Dict.mem_items, hitems] at hget
      exact absurd hget List.not_mem_nil
  | cons item items =>
      obtain ⟨rank, d⟩ := item
      have hitem : ranks.get? rank = some d :=
        Dict.mem_items.mp (hitems ▸ List.mem_cons_self)
      rw [hranks] at hitem
      split at hitem
      · rename_i hzero
        obtain rfl := Option.some.inj hitem
        rw [starts, hitems, List.flatMap_cons, hzero, hrecords]
        exact ⟨_, rfl⟩
      · cases hitem

/-- The chain of `links` is followed to its end, in every order. -/
theorem analyzeWithin_links {limit : Nat} {files : List File} (hn : limit < 2 * n)
    (hn' : 2 * n < 2 ^ 26) (hrank : OwnRank (selectRanks files).1)
    (hranks : ∀ k, (selectRanks files).1.get? k = if k = 0 then some data else none)
    (hevents : data.events = (List.range (2 * n)).map linkEvent) (order : String → SetOrder String)
    (expectedRanks : Option (Finset Int)) (communicatorId : Option Int) :
    analyzeWithin limit order files expectedRanks communicatorId = none := by
  have hdata : (selectRanks files).1.get? 0 = some data := hranks 0
  obtain ⟨post, hstarts⟩ := starts_links (by omega) (by omega) hranks hevents
  obtain ⟨m, hm⟩ : ∃ m, 2 * n = m + 1 := ⟨2 * n - 1, by omega⟩
  have hpath : linkNode 0 :: ((List.range m).map (· + 1)).map linkNode
      = (List.range (2 * n)).map linkNode := by
    rw [hm, List.range_succ_eq_map, List.map_cons]
  have hkeys : (orderedGraph order (rankEdges (selectRanks files).1
      (scanRanks (selectRanks files).1).1)).keys = [] ++ linkNode 0 :: post := by
    show (streamGraph (.insertion String) _ _).keys = _
    rw [keys_streamGraph hrank, hstarts]
    rfl
  -- Each node of the chain has only the next one to go to.
  have hfollowed : Followed (orderedGraph order (rankEdges (selectRanks files).1
      (scanRanks (selectRanks files).1).1)) ((List.range (2 * n)).map linkNode) := by
    refine followed_of_only ?_
    rw [List.isChain_map, List.isChain_range]
    intro k hk c
    have hedge : (orderedGraph order (rankEdges (selectRanks files).1
        (scanRanks (selectRanks files).1).1)).Edge (linkNode k) c ↔
          OpEdge (selectRanks files).1 (linkNode k) c := by
      rw [orderedGraph_eq_reorder, Graph.edge_reorder]
      exact edge_streamGraph (.insertion String) hrank
    rw [hedge]
    exact opEdge_linkNode (by omega) hdata hevents (by omega) c
  have hnodup : ((List.range (2 * n)).map linkNode).Nodup := by
    refine List.Nodup.map_on (fun k hk k' hk' heq => ?_) List.nodup_range
    rw [List.mem_range] at hk hk'
    exact linkNode_inj (by omega) (by omega) heq
  have hlong : limit < ((List.range (2 * n)).map linkNode).length := by
    rw [List.length_map, List.length_range]
    exact hn
  rw [← hpath] at hfollowed hnodup hlong
  have hnone := visitKeys_eq_none hkeys hfollowed hnodup (by simp) hlong
  simp only [analyzeWithin, findCyclesWithin, hnone, Option.map_none]

end

/-- A log of 1002 events makes `visit` nest deeper than CPython allows: 501
streams each wait for the next one, whose record comes later. -/
theorem long_chain_exceeds_limit :
    ∃ r r', flightInit none (some "r0.flight") 0 0 2048 ⟨none, none, none, 100, 5, 7⟩ = .ok r ∧
      recordCalls (some r) 100 (links 501) = some r' ∧
      ∀ order,
        analyzeWithin RECURSION_LIMIT order [("r0.flight", .ok r'.file)] none none = none := by
  have hinit : flightInit none (some "r0.flight") 0 0 2048 ⟨none, none, none, 100, 5, 7⟩
      = .ok ⟨initRing 0 0 2048 ⟨none, none, none, 100, 5, 7⟩, 2048, 100⟩ := rfl
  obtain ⟨r', s, hr', hown, hget, hevents⟩ := selectRanks_recordCalls hinit (links 501) "r0.flight"
  refine ⟨_, r', rfl, hr', fun order => ?_⟩
  have hlen : (links 501).length = 1002 := by
    simp [links]
  have hlinks : s.events = (List.range (2 * 501)).map linkEvent := by
    have hslots : (2048 : UInt64).toNat = 2048 := rfl
    rw [hevents, hlen, hslots, Ring.retained]
    -- The ring is large enough to keep all the calls.
    show (Ring.events ⟨100, 0, 0⟩ (links 501)).drop 0 = _
    rw [List.drop_zero, Ring.events, links]
    refine List.ext_getElem (by simp) fun k hk hk' => ?_
    simp [linkEvent]
  exact analyzeWithin_links (by decide) (by decide) hown hget hlinks order none none

end HangAnalyzer.Analyzer
