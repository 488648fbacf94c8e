import CongestionControl.Pevm.KeyAccess
import CongestionControl.Pevm.Proofs.ConstructionProofs
import CongestionControl.Pevm.Proofs.SimulationProofs

/-!
# Proofs: the spans of the keys

The span of a key summarises the transactions whose looked-up node accesses the key. That is the last
node with the number of the transaction, another replica's if replicas use the same numbers.
-/

namespace CongestionControl.Pevm

open TransactionNode
open scoped List

structure KeyAccessSpan.Summarises (key : Key) (txs : List ScheduledTx) (span : KeyAccessSpan) :
    Prop where
  key_eq : span.key = key
  earliest : IsLeast {t | ∃ tx ∈ txs, tx.startTime.toNat = t} span.earliestStart.toNat
  latest : IsGreatest {t | ∃ tx ∈ txs, tx.endTime.toNat = t} span.latestFinish.toNat
  count : span.accessCount = txs.length

def recordAll (key : Key) (txs : List ScheduledTx) (entry : Option KeyAccessSpan) :
    Option KeyAccessSpan :=
  txs.foldl (fun entry tx => some (.record key tx entry)) entry

theorem toNat_min (a b : UInt64) : (min a b).toNat = min a.toNat b.toNat := by
  rw [show min a b = if a ≤ b then a else b from rfl]
  split <;> rename_i h <;> rw [UInt64.le_iff_toNat_le] at h <;> omega

open KeyAccessSpan

theorem summarises_singleton (key : Key) (tx : ScheduledTx) :
    Summarises key [tx] (.record key tx none) := by
  refine ⟨rfl, ⟨⟨tx, List.mem_singleton_self tx, rfl⟩, ?_⟩,
    ⟨⟨tx, List.mem_singleton_self tx, rfl⟩, ?_⟩, rfl⟩
  · rintro t ⟨tx', htx', rfl⟩
    rw [List.mem_singleton.mp htx']
    exact le_rfl
  · rintro t ⟨tx', htx', rfl⟩
    rw [List.mem_singleton.mp htx']
    exact le_rfl

variable {txs : List ScheduledTx}

theorem KeyAccessSpan.Summarises.concat {key : Key} {span : KeyAccessSpan}
    (h : Summarises key txs span) (tx : ScheduledTx) :
    Summarises key (txs ++ [tx]) (.record key tx (some span)) := by
  have hmem : ∀ {tx'}, tx' ∈ txs ++ [tx] ↔ tx' ∈ txs ∨ tx' = tx := by simp
  obtain ⟨⟨first, hfirst, hstart⟩, hleast⟩ := h.earliest
  obtain ⟨⟨last, hlast, hend⟩, hgreatest⟩ := h.latest
  refine ⟨h.key_eq, ⟨?_, ?_⟩, ⟨?_, ?_⟩, by simp [record, h.count]⟩
  · show ∃ tx' ∈ txs ++ [tx], _ = (min span.earliestStart tx.startTime).toNat
    rw [toNat_min]
    rcases le_total span.earliestStart.toNat tx.startTime.toNat with hle | hle
    · exact ⟨first, hmem.mpr (.inl hfirst), by omega⟩
    · exact ⟨tx, hmem.mpr (.inr rfl), by omega⟩
  · rintro t ⟨tx', htx', rfl⟩
    show (min span.earliestStart tx.startTime).toNat ≤ _
    rw [toNat_min]
    rcases hmem.mp htx' with htx' | rfl
    · have hle := hleast ⟨tx', htx', rfl⟩
      omega
    · omega
  · show ∃ tx' ∈ txs ++ [tx], _ = (max span.latestFinish tx.endTime).toNat
    rw [TransactionGraph.toNat_max]
    rcases le_total span.latestFinish.toNat tx.endTime.toNat with hle | hle
    · exact ⟨tx, hmem.mpr (.inr rfl), by omega⟩
    · exact ⟨last, hmem.mpr (.inl hlast), by omega⟩
  · rintro t ⟨tx', htx', rfl⟩
    show _ ≤ (max span.latestFinish tx.endTime).toNat
    rw [TransactionGraph.toNat_max]
    rcases hmem.mp htx' with htx' | rfl
    · have hle := hgreatest ⟨tx', htx', rfl⟩
      omega
    · omega

theorem recordAll_none (key : Key) (txs : List ScheduledTx) :
    (txs = [] → recordAll key txs none = none) ∧
      (txs ≠ [] → ∃ span, recordAll key txs none = some span ∧ Summarises key txs span) := by
  induction txs using List.reverseRecOn with
  | nil => exact ⟨fun _ => rfl, fun h => absurd rfl h⟩
  | append_singleton txs tx ih =>
    refine ⟨fun h => absurd h (by simp), fun _ => ?_⟩
    have hstep : recordAll key (txs ++ [tx]) none =
        some (.record key tx (recordAll key txs none)) := by
      rw [recordAll, List.foldl_append]
      rfl
    rw [hstep]
    by_cases hnil : txs = []
    · rw [hnil]
      exact ⟨_, rfl, summarises_singleton key tx⟩
    · obtain ⟨span, heq, hspan⟩ := ih.2 hnil
      rw [heq]
      exact ⟨_, rfl, hspan.concat tx⟩

namespace TransactionGraph

variable {g : TransactionGraph} {order : ScheduledTx → IterOrder Key} {k : Nat}
  {node : TransactionNode}

theorem lookup_recordKeys (tx : ScheduledTx) (keys : List Key) (hkeys : keys.Nodup)
    (spans : HashMap Key KeyAccessSpan) (key : Key) :
    (keys.foldl (recordKey tx) spans).lookup key =
      if key ∈ keys then some (.record key tx (spans.lookup key)) else spans.lookup key := by
  induction keys generalizing spans with
  | nil => simp
  | cons a keys ih =>
    obtain ⟨ha, hkeys'⟩ := List.nodup_cons.mp hkeys
    rw [List.foldl_cons, ih hkeys']
    by_cases hka : key = a
    · subst hka
      simp [ha, recordKey]
    · simp [hka, recordKey, Finmap.lookup_insert_of_ne]

def Accesses (g : TransactionGraph) (key : Key) (tx : ScheduledTx) : Prop :=
  ∃ node, g.nodeMap.lookup tx.txId.id = some node ∧ node.Touches key

instance (g : TransactionGraph) (key : Key) : DecidablePred (g.Accesses key) := fun tx =>
  match h : g.nodeMap.lookup tx.txId.id with
  | some node => decidable_of_iff (node.Touches key) (by simp [Accesses, h])
  | none => .isFalse (by simp [Accesses, h])

theorem lookup_analyzeTx (spans : HashMap Key KeyAccessSpan) (tx : ScheduledTx) (key : Key) :
    (g.analyzeTx order spans tx).lookup key =
      if g.Accesses key tx then some (.record key tx (spans.lookup key))
      else spans.lookup key := by
  unfold analyzeTx
  split
  · rename_i node hnode
    rw [lookup_recordKeys tx _ ((order tx).nodup_toList _)]
    simp [Accesses, hnode, Touches]
  · rename_i hnode
    simp [Accesses, hnode]

theorem lookup_analyze (txs : List ScheduledTx) (spans : HashMap Key KeyAccessSpan) (key : Key) :
    (txs.foldl (g.analyzeTx order) spans).lookup key =
      recordAll key (txs.filter fun tx => g.Accesses key tx) (spans.lookup key) := by
  induction txs generalizing spans with
  | nil => rfl
  | cons tx txs ih =>
    rw [List.foldl_cons, ih, lookup_analyzeTx]
    by_cases htx : g.Accesses key tx
    · have hfilter : (tx :: txs).filter (fun tx => g.Accesses key tx) =
          tx :: txs.filter fun tx => g.Accesses key tx := List.filter_cons_of_pos (by simpa using htx)
      rw [if_pos htx, hfilter]
      rfl
    · have hfilter : (tx :: txs).filter (fun tx => g.Accesses key tx) =
          txs.filter fun tx => g.Accesses key tx := List.filter_cons_of_neg (by simpa using htx)
      rw [if_neg htx, hfilter]

theorem lookup_foldl_nodes (nodes : List TransactionNode) (m : HashMap Nat TransactionNode)
    (id : Nat) :
    ((nodes.foldl (fun m node => m.insert node.id node) m).lookup id = m.lookup id ∧
        ∀ node ∈ nodes, node.id ≠ id) ∨
      ∃ node ∈ nodes, node.id = id ∧
        (nodes.foldl (fun m node => m.insert node.id node) m).lookup id = some node := by
  induction nodes generalizing m with
  | nil => exact .inl ⟨rfl, by simp⟩
  | cons a nodes ih =>
    rw [List.foldl_cons]
    rcases ih (m.insert a.id a) with ⟨heq, hne⟩ | ⟨node, hnode, hid, heq⟩
    · by_cases ha : a.id = id
      · refine .inr ⟨a, List.mem_cons_self, ha, ?_⟩
        rw [heq, ← ha, Finmap.lookup_insert]
      · refine .inl ⟨?_, List.forall_mem_cons.mpr ⟨ha, hne⟩⟩
        rw [heq, Finmap.lookup_insert_of_ne _ (Ne.symm ha)]
    · exact .inr ⟨node, List.mem_cons_of_mem _ hnode, hid, heq⟩

theorem exists_nodeMap (h : node ∈ g.nodes) :
    ∃ last ∈ g.nodes, last.id = node.id ∧ g.nodeMap.lookup node.id = some last := by
  rcases lookup_foldl_nodes g.nodes ∅ node.id with ⟨-, hne⟩ | hsome
  · exact absurd rfl (hne node h)
  · exact hsome

def OwnAccesses (g : TransactionGraph) (key : Key) (tx : ScheduledTx) : Prop :=
  ∃ node ∈ g.nodes, node.transactionId = tx.txId ∧ node.Touches key

instance (g : TransactionGraph) (key : Key) : DecidablePred (g.OwnAccesses key) := fun tx =>
  inferInstanceAs (Decidable (∃ node ∈ g.nodes, node.transactionId = tx.txId ∧ node.Touches key))

def SameKeys (g : TransactionGraph) : Prop :=
  ∀ node ∈ g.nodes, ∀ node' ∈ g.nodes, node.id = node'.id → node.addresses = node'.addresses

instance (g : TransactionGraph) : Decidable g.SameKeys :=
  inferInstanceAs (Decidable (∀ node ∈ g.nodes, ∀ node' ∈ g.nodes, _ → _))

structure SpansOf (g : TransactionGraph) (executionOrder : List ScheduledTx)
    (spans : HashMap Key KeyAccessSpan) : Prop where
  keys : ∀ key, key ∈ spans ↔ ∃ node ∈ g.nodes, node.Touches key
  spans : ∀ key span, spans.lookup key = some span →
    span.Summarises key (executionOrder.filter fun tx => g.OwnAccesses key tx)

section Represented

variable {b : BlockGraph} {tx : ScheduledTx} {key : Key} {g' : TransactionGraph}

theorem Represents.ownAccesses_iff (h : g.Represents b) (hnode : node ∈ g.nodes)
    (hid : node.transactionId = tx.txId) :
    g.OwnAccesses key tx ↔ node.Touches key := by
  refine ⟨?_, fun htouch => ⟨node, hnode, hid, htouch⟩⟩
  rintro ⟨node', hnode', hid', htouch⟩
  have hnodup : g.ids.Nodup := by
    rw [h.ids_eq]
    exact b.nodup
  have heq : node' = node := List.inj_on_of_nodup_map hnodup hnode' hnode (hid'.trans hid.symm)
  exact heq ▸ htouch

theorem accesses_iff {last : TransactionNode} (hid : node.transactionId = tx.txId)
    (hlast : g.nodeMap.lookup node.id = some last) : g.Accesses key tx ↔ last.Touches key := by
  have hlookup : g.nodeMap.lookup tx.txId.id = some last := by
    rw [← hid]
    exact hlast
  rw [Accesses, hlookup]
  simp

/-- The transactions that count for a key are those that access it, if equal numbers mean equal
keys. -/
theorem Represents.filter_accesses (h : g.Represents b) (hsame : g.SameKeys)
    (htxs : ∀ tx ∈ txs, tx.txId ∈ g.ids) (key : Key) :
    (txs.filter fun tx => g.Accesses key tx) = txs.filter fun tx => g.OwnAccesses key tx := by
  refine List.filter_congr fun tx htx => ?_
  obtain ⟨node, hnode, hid⟩ := List.mem_map.mp (htxs tx htx)
  obtain ⟨last, hlast, hlastId, hlookup⟩ := exists_nodeMap hnode
  rw [decide_eq_decide, accesses_iff hid hlookup, h.ownAccesses_iff hnode hid, Touches, Touches,
    hsame last hlast node hnode hlastId]

/-- Otherwise there is a transaction that counts for a key it does not access, or the other way
round. -/
theorem Represents.filter_accesses_ne (h : g.Represents b) (hdiff : ¬g.SameKeys)
    (htxs : ∀ txId ∈ g.ids, ∃ tx ∈ txs, tx.txId = txId) :
    ∃ key, (txs.filter fun tx => g.Accesses key tx) ≠ txs.filter fun tx => g.OwnAccesses key tx := by
  by_contra hall
  push Not at hall
  refine hdiff fun node hnode node' hnode' heq => ?_
  have hlast : ∀ node ∈ g.nodes, ∀ last, g.nodeMap.lookup node.id = some last →
      last.addresses = node.addresses := by
    intro node hnode last hlookup
    obtain ⟨tx, htx, hid⟩ := htxs _ (List.mem_map_of_mem hnode)
    refine Finset.ext fun key => ?_
    have hmem : tx ∈ (txs.filter fun tx => g.Accesses key tx) ↔
        tx ∈ txs.filter fun tx => g.OwnAccesses key tx := by rw [hall key]
    rw [List.mem_filter, List.mem_filter, decide_eq_true_iff, decide_eq_true_iff,
      accesses_iff hid.symm hlookup, h.ownAccesses_iff hnode hid.symm] at hmem
    exact ⟨fun hkey => (hmem.mp ⟨htx, hkey⟩).2, fun hkey => (hmem.mpr ⟨htx, hkey⟩).2⟩
  obtain ⟨last, -, -, hlookup⟩ := exists_nodeMap hnode
  rw [← hlast node hnode last hlookup, ← hlast node' hnode' last (heq ▸ hlookup)]

theorem spansOf_analyze (order : ScheduledTx → IterOrder Key)
    (hids : ∀ txId ∈ g.ids, ∃ tx ∈ txs, tx.txId = txId)
    (heq : ∀ key, (txs.filter fun tx => g.Accesses key tx) =
      txs.filter fun tx => g.OwnAccesses key tx) :
    g.SpansOf txs (txs.foldl (g.analyzeTx order) ∅) := by
  have hlookup : ∀ key, (txs.foldl (g.analyzeTx order) ∅).lookup key =
      recordAll key (txs.filter fun tx => g.OwnAccesses key tx) none := by
    intro key
    rw [lookup_analyze, heq, Finmap.lookup_empty]
  constructor
  · intro key
    rw [← Finmap.lookup_isSome, hlookup]
    constructor
    · intro hsome
      by_cases hnil : (txs.filter fun tx => g.OwnAccesses key tx) = []
      · rw [(recordAll_none key _).1 hnil] at hsome
        cases hsome
      · obtain ⟨tx, htx⟩ := List.exists_mem_of_ne_nil _ hnil
        obtain ⟨node, hnode, -, htouch⟩ := of_decide_eq_true (List.mem_filter.mp htx).2
        exact ⟨node, hnode, htouch⟩
    · rintro ⟨node, hnode, htouch⟩
      obtain ⟨tx, htx, hid⟩ := hids _ (List.mem_map_of_mem hnode)
      have hmem : tx ∈ txs.filter fun tx => g.OwnAccesses key tx :=
        List.mem_filter.mpr ⟨htx, decide_eq_true ⟨node, hnode, hid.symm, htouch⟩⟩
      obtain ⟨span, hspan, -⟩ := (recordAll_none key _).2 (List.ne_nil_of_mem hmem)
      rw [hspan]
      rfl
  · intro key span hspan
    rw [hlookup] at hspan
    by_cases hnil : (txs.filter fun tx => g.OwnAccesses key tx) = []
    · rw [(recordAll_none key _).1 hnil] at hspan
      cases hspan
    · obtain ⟨span', hspan', hsum⟩ := (recordAll_none key _).2 hnil
      rw [hspan'] at hspan
      cases hspan
      exact hsum

theorem Represents.exists_node_iff (h : g.Represents b) (h' : g'.Represents b)
    {P : TransactionNode → Prop} (hP : ∀ node, P node.fresh = P node) :
    (∃ node ∈ g'.nodes, P node) ↔ ∃ node ∈ g.nodes, P node := by
  have hiff : ∀ {g : TransactionGraph}, g.Represents b →
      ((∃ node ∈ g.nodes, P node) ↔ ∃ node ∈ b.txs, P node) := by
    intro g h
    rw [← h.nodes]
    constructor
    · rintro ⟨node, hnode, hp⟩
      exact ⟨node.fresh, List.mem_map_of_mem hnode, (hP node).mpr hp⟩
    · rintro ⟨node, hnode, hp⟩
      obtain ⟨old, hold, rfl⟩ := List.mem_map.mp hnode
      exact ⟨old, hold, (hP old).mp hp⟩
  exact (hiff h').trans (hiff h).symm

theorem Represents.ownAccesses_congr (h : g.Represents b) (h' : g'.Represents b) :
    g'.OwnAccesses key tx ↔ g.OwnAccesses key tx :=
  h.exists_node_iff h' fun _ => rfl

theorem Represents.sameKeys_congr (h : g.Represents b) (h' : g'.Represents b) :
    g'.SameKeys ↔ g.SameKeys := by
  have hiff : ∀ {g : TransactionGraph}, g.SameKeys ↔
      ¬∃ node ∈ g.nodes, ∃ node' ∈ g.nodes, node.id = node'.id ∧ node.addresses ≠ node'.addresses := by
    intro g
    simp only [SameKeys, not_exists, not_and, not_not]
  have hinner : ∀ node : TransactionNode,
      (∃ node' ∈ g'.nodes, node.id = node'.id ∧ node.addresses ≠ node'.addresses) ↔
        ∃ node' ∈ g.nodes, node.id = node'.id ∧ node.addresses ≠ node'.addresses :=
    fun node => h.exists_node_iff h' fun _ => rfl
  rw [hiff, hiff, h.exists_node_iff h' fun _ => rfl]
  simp only [hinner]

end Represented

/-- The keys of a transaction are taken from the last node with its number. So the spans of a
simulated graph are right if transactions with the same number access the same keys; otherwise a
transaction counts for a key that it does not access, or does not count for one that it does. -/
theorem analyze_spans (g : TransactionGraph) (h : g.Constructed) (k : Nat) (hk : 1 ≤ k)
    (order : ScheduledTx → IterOrder Key) :
    ∃ g' result spans, g.simulateParallelExecution k = some g' ∧
      g'.simulationResult = some result ∧ g'.analyzeKeyAccessSpans order = some spans ∧
      (g.SameKeys → g.SpansOf result.executionOrder spans) ∧
      (¬g.SameKeys → ∃ key, (result.executionOrder.filter fun tx => g'.Accesses key tx) ≠
        result.executionOrder.filter fun tx => g.OwnAccesses key tx) := by
  obtain ⟨b, hb⟩ := h.represents
  have hheap : g.txnsWithoutParent = [] := congrArg Prod.fst h.simulationState
  obtain ⟨g', he, hb', -, result, hresult, hschedule⟩ := hb.simulate hk fun _ => hheap
  have htxs : ∀ tx ∈ result.executionOrder, tx.txId ∈ g'.ids := by
    intro tx htx
    rw [hb'.ids_eq]
    exact hschedule.perm.mem_iff.mp (List.mem_map_of_mem htx)
  have hids : ∀ txId ∈ g'.ids, ∃ tx ∈ result.executionOrder, tx.txId = txId := by
    intro txId htxId
    rw [hb'.ids_eq] at htxId
    exact List.mem_map.mp (hschedule.perm.mem_iff.mpr htxId)
  have hown : ∀ key, (result.executionOrder.filter fun tx => g'.OwnAccesses key tx) =
      result.executionOrder.filter fun tx => g.OwnAccesses key tx := fun key =>
    List.filter_congr fun tx _ => decide_eq_decide.mpr (hb.ownAccesses_congr hb')
  refine ⟨g', result, _, he, hresult, by rw [analyzeKeyAccessSpans, hresult, Option.map_some],
    fun hsame => ?_, fun hdiff => ?_⟩
  · have hspans := spansOf_analyze order hids
      (hb'.filter_accesses ((hb.sameKeys_congr hb').mpr hsame) htxs)
    constructor
    · intro key
      rw [hspans.keys]
      exact hb.exists_node_iff hb' fun _ => rfl
    · intro key span hspan
      rw [← hown]
      exact hspans.spans key span hspan
  · obtain ⟨key, hne⟩ := hb'.filter_accesses_ne (mt (hb.sameKeys_congr hb').mp hdiff) hids
    exact ⟨key, by rwa [← hown]⟩

theorem pairGraph_spans : ∃ g' result spans, pairGraph.simulateParallelExecution 2 = some g' ∧
    g'.simulationResult = some result ∧
    g'.analyzeKeyAccessSpans (fun _ => .sorted) = some spans ∧
    pairGraph.SpansOf result.executionOrder spans := by
  obtain ⟨g', result, spans, he, hresult, hspans, hsame, -⟩ :=
    analyze_spans pairGraph pairGraph_constructed 2 (by decide) fun _ => .sorted
  exact ⟨g', result, spans, he, hresult, hspans, hsame (by decide +kernel)⟩

def mergedReplicas : TransactionGraph :=
  let order : HashOrder := ⟨.sorted, .sorted⟩
  let write (replica key : Nat) : TransactionNode := .new 0 replica 1 .empty (.singleton key)
  ((TransactionGraph.new.addTransaction order (write 0 1)).1.integrateGraph order
    (TransactionGraph.new.addTransaction order (write 1 2)).1).1

/-- The key of the first replica has no span: its transaction is counted for the key of the other. -/
theorem mergedReplicas_spans : mergedReplicas.Constructed ∧ ∃ g' result spans,
    mergedReplicas.simulateParallelExecution 1 = some g' ∧ g'.simulationResult = some result ∧
      g'.analyzeKeyAccessSpans (fun _ => .sorted) = some spans ∧
      spans.lookup 1 = none ∧ spans.lookup 2 = some ⟨2, 0, 2, 2⟩ ∧
      ¬mergedReplicas.SpansOf result.executionOrder spans := by
  refine ⟨
    .integrate _ (List.disjoint_toFinset_iff_disjoint.mp (by decide +kernel)) (.add _ ⟨rfl, rfl⟩ .new) (.add _ ⟨rfl, rfl⟩ .new), ?_⟩
  have hlookups : ((mergedReplicas.simulateParallelExecution 1).bind
      (analyzeKeyAccessSpans fun _ => .sorted)).map (fun spans => (spans.lookup 1, spans.lookup 2)) =
      some (none, some ⟨2, 0, 2, 2⟩) := by decide +kernel
  obtain ⟨spans, hsome, hlookup⟩ := Option.map_eq_some_iff.mp hlookups
  obtain ⟨g', hg', hspans⟩ := Option.bind_eq_some_iff.mp hsome
  obtain ⟨result, hresult, -⟩ := Option.map_eq_some_iff.mp hspans
  obtain ⟨h1, h2⟩ := Prod.mk.inj hlookup
  refine ⟨g', result, spans, hg', hresult, hspans, h1, h2, fun hright => ?_⟩
  have hmem : 1 ∈ spans := (hright.keys 1).mpr (by decide +kernel)
  exact absurd hmem (Finmap.lookup_eq_none.mp h1)

end TransactionGraph

end CongestionControl.Pevm
