import CongestionControl.Lib.Precedence
import CongestionControl.Pevm.DependencyGraph

/-!
# What a dependency graph stands for

A `BlockGraph` is the list of the transactions of a block in the order in which they entered the graph.
A transaction is linked to the last one before it that touches one of its keys: if it is added, provided
the two have a write in common; if it is the first toucher of the key in a graph that is merged, always.
-/

namespace CongestionControl.Pevm

open scoped List

variable {node : TransactionNode} {addr : Key}

namespace TransactionNode

@[simp] theorem fresh_fresh (node : TransactionNode) : node.fresh.fresh = node.fresh := rfl

@[simp] theorem transactionId_fresh (node : TransactionNode) :
    node.fresh.transactionId = node.transactionId := rfl

@[simp] theorem addresses_fresh (node : TransactionNode) :
    node.fresh.addresses = node.addresses := rfl

def Touches (node : TransactionNode) (addr : Key) : Prop := addr ∈ node.addresses

def Writes (node : TransactionNode) (addr : Key) : Prop := addr ∈ node.writeSet.keys

instance (node : TransactionNode) (addr : Key) : Decidable (node.Touches addr) :=
  inferInstanceAs (Decidable (addr ∈ node.addresses))

instance (node : TransactionNode) (addr : Key) : Decidable (node.Writes addr) :=
  inferInstanceAs (Decidable (addr ∈ node.writeSet.keys))

theorem Writes.touches (h : node.Writes addr) :
    node.Touches addr :=
  Finset.mem_union_right _ (List.mem_toFinset.mpr h)

def Conflicts (p c : TransactionNode) : Prop := ∃ addr, p.Writes addr ∧ c.Writes addr

end TransactionNode

open TransactionNode

def touching (addr : Key) (txs : List TransactionNode) : List TransactionNode :=
  txs.filter fun node => node.Touches addr

@[simp] theorem touching_append (addr : Key) (txs txs' : List TransactionNode) :
    touching addr (txs ++ txs') = touching addr txs ++ touching addr txs' :=
  List.filter_append _ _

structure BlockGraph where
  txs : List TransactionNode
  Link : TransactionId → TransactionId → Prop
  fresh : ∀ node ∈ txs, node.fresh = node
  nodup : (txs.map transactionId).Nodup
  ordered : ∀ p c, Link p c → [p, c] <+ txs.map transactionId
  /-- Successive touchers of a key are linked if both write it. -/
  chained : ∀ addr, (touching addr txs).IsChain fun p c =>
    p.Writes addr → c.Writes addr → Link p.transactionId c.transactionId

namespace BlockGraph

def ids (b : BlockGraph) : List TransactionId := b.txs.map transactionId

def head (b : BlockGraph) (addr : Key) : Option TransactionNode := (touching addr b.txs).head?

def tail (b : BlockGraph) (addr : Key) : Option TransactionNode := (touching addr b.txs).getLast?

theorem head_mem {b : BlockGraph} (h : b.head addr = some node) :
    node ∈ b.txs ∧ node.Touches addr := by
  simpa [touching] using List.mem_of_mem_head? h

theorem tail_mem {b : BlockGraph} (h : b.tail addr = some node) :
    node ∈ b.txs ∧ node.Touches addr := by
  simpa [touching] using List.mem_of_mem_getLast? h

def empty : BlockGraph where
  txs := []
  Link _ _ := False
  fresh := by simp
  nodup := List.nodup_nil
  ordered := by simp
  chained _ := .nil

def single (node : TransactionNode) : BlockGraph where
  txs := [node.fresh]
  Link _ _ := False
  fresh := by simp
  nodup := List.nodup_singleton _
  ordered := by simp
  chained addr := by
    by_cases h : node.fresh.Touches addr <;> simp [touching, h]

/-- The links between a tail of one graph and a head of the other that are made if `cross` holds. -/
def CrossLink (cross : TransactionNode → TransactionNode → Prop) (b other : BlockGraph)
    (p c : TransactionId) : Prop :=
  ∃ addr tail head, b.tail addr = some tail ∧ other.head addr = some head ∧ cross tail head ∧
    p = tail.transactionId ∧ c = head.transactionId

def append (cross : TransactionNode → TransactionNode → Prop)
    (hcross : ∀ p c, p.Conflicts c → cross p c) (b other : BlockGraph)
    (hdisj : b.ids.Disjoint other.ids) : BlockGraph where
  txs := b.txs ++ other.txs
  Link p c := b.Link p c ∨ other.Link p c ∨ CrossLink cross b other p c
  fresh node h := (List.mem_append.mp h).elim (b.fresh node) (other.fresh node)
  nodup := by
    rw [List.map_append]
    exact b.nodup.append other.nodup hdisj
  ordered := by
    rw [List.map_append]
    rintro p c (h | h | ⟨addr, tail, head, ht, hh, -, rfl, rfl⟩)
    · exact (b.ordered p c h).trans (List.sublist_append_left _ _)
    · exact (other.ordered p c h).trans (List.sublist_append_right _ _)
    · exact List.pair_sublist_append (List.mem_map_of_mem (tail_mem ht).1)
        (List.mem_map_of_mem (head_mem hh).1)
  chained addr := by
    rw [touching_append]
    refine List.isChain_append.mpr ⟨?_, ?_, ?_⟩
    · exact (b.chained addr).imp fun _ _ h hp hc => .inl (h hp hc)
    · exact (other.chained addr).imp fun _ _ h hp hc => .inr (.inl (h hp hc))
    · intro tail ht head hh hp hc
      exact .inr (.inr ⟨addr, tail, head, ht, hh, hcross _ _ ⟨addr, hp, hc⟩, rfl, rfl⟩)

def add (b : BlockGraph) (node : TransactionNode) (hnew : node.transactionId ∉ b.ids) :
    BlockGraph :=
  append Conflicts (fun _ _ => id) b (single node) (by
    rw [show (single node).ids = [node.transactionId] from rfl]
    exact List.disjoint_singleton.mpr hnew)

def integrate (b other : BlockGraph) (hdisj : b.ids.Disjoint other.ids) : BlockGraph :=
  append (fun _ _ => True) (fun _ _ _ => trivial) b other hdisj

end BlockGraph

namespace TransactionGraph

def ids (g : TransactionGraph) : List TransactionId := g.nodes.map transactionId

def Indexes (table : HashMap TransactionId Nat) (ids : List TransactionId) : Prop :=
  ∀ txId i, table.lookup txId = some i ↔ ids[i]? = some txId

structure Tables (g : TransactionGraph) (txs : List TransactionNode)
    (Link : TransactionId → TransactionId → Prop) : Prop where
  nodes : g.nodes.map TransactionNode.fresh = txs
  index : Indexes g.idToIndex (txs.map transactionId)
  mirrored : g.Mirrored
  links : ∀ p c, c ∈ g.children p ↔ ∃ pid cid,
    (txs.map transactionId)[p]? = some pid ∧ (txs.map transactionId)[c]? = some cid ∧ Link pid cid

structure Represents (g : TransactionGraph) (b : BlockGraph) : Prop
    extends Tables g b.txs b.Link where
  heads : ∀ addr, g.headTxns.lookup addr = (b.head addr).map transactionId
  tails : ∀ addr, g.tailTxns.lookup addr = (b.tail addr).map transactionId

/-- The graphs made by calls of `add_transaction` with fresh nodes and new ids and of
`integrate_graph` with graphs that have no id in common, and what they stand for. -/
inductive Builds : TransactionGraph → BlockGraph → Prop
  | new : Builds new .empty
  | add {g : TransactionGraph} {b : BlockGraph} (order : HashOrder) (node : TransactionNode)
      (hnew : node.transactionId ∉ b.ids) :
      Builds g b → Builds (g.addTransaction order node.fresh).1 (b.add node hnew)
  | integrate {g other : TransactionGraph} {b bo : BlockGraph} (order : HashOrder)
      (hdisj : b.ids.Disjoint bo.ids) :
      Builds g b → Builds other bo → Builds (g.integrateGraph order other).1 (b.integrate bo hdisj)

/-- The graphs made by any calls of `add_transaction` with nodes that have no links, failed calls
included, and of `integrate_graph` with graphs that have no id in common. -/
inductive Constructed : TransactionGraph → Prop
  | new : Constructed new
  | add {g : TransactionGraph} (order : HashOrder) {node : TransactionNode} :
      node.Unlinked → Constructed g → Constructed (g.addTransaction order node).1
  | integrate {g other : TransactionGraph} (order : HashOrder) :
      g.ids.Disjoint other.ids →
      Constructed g → Constructed other → Constructed (g.integrateGraph order other).1

end TransactionGraph

end CongestionControl.Pevm
