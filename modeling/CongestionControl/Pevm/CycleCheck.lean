import CongestionControl.Pevm.DependencyGraph

/-!
# The search for a cycle in a dependency graph

`has_cycle` of `dependency_graph.rs`, a recursive depth-first search. It returns at once when it has
found a cycle. A function returns `none` where the source would panic, or if it runs out of fuel.
-/

namespace CongestionControl.Pevm

namespace TransactionGraph

def Edge (g : TransactionGraph) (p c : Nat) : Prop := c ∈ g.children p

def InRange (g : TransactionGraph) : Prop := ∀ p c, g.Edge p c → c < g.nodes.length

/-- The marks of the search, and the path that is printed when a cycle is found. -/
structure CycleSearch where
  visited : Finset Nat
  recStack : Finset Nat
  path : List Nat

def scanChildren (n : Nat) (dfs : Nat → CycleSearch → Option (Bool × CycleSearch)) :
    List Nat → CycleSearch → Option (Bool × CycleSearch)
  | [], t => some (false, t)
  | childIdx :: rest, t =>
    -- The arrays of marks have the length of `nodes`.
    if n ≤ childIdx then none
    else if childIdx ∉ t.visited then
      match dfs childIdx t with
      | some (false, t) => scanChildren n dfs rest t
      | found => found
    -- The cycle is printed from the position of the child on the path.
    else if childIdx ∈ t.recStack then (t.path.idxOf? childIdx).map fun _ => (true, t)
    else scanChildren n dfs rest t

def dfs (g : TransactionGraph) : Nat → Nat → CycleSearch → Option (Bool × CycleSearch)
  | 0, _, _ => none
  | fuel + 1, nodeIdx, t =>
    (g.nodes[nodeIdx]?).bind fun node =>
      match scanChildren g.nodes.length (g.dfs fuel) node.childrenIndices
        ⟨insert nodeIdx t.visited, insert nodeIdx t.recStack, t.path ++ [nodeIdx]⟩ with
      | some (false, t) => some (false, ⟨t.visited, t.recStack.erase nodeIdx, t.path.dropLast⟩)
      | found => found

def scanNodes (g : TransactionGraph) : List Nat → CycleSearch → Option Bool
  | [], _ => some false
  | i :: rest, t =>
    if i ∉ t.visited then
      match g.dfs (g.nodes.length + 1) i { t with path := [] } with
      | some (false, t) => g.scanNodes rest t
      | found => found.map Prod.fst
    else g.scanNodes rest t

def hasCycle (g : TransactionGraph) : Option Bool :=
  g.scanNodes (List.range g.nodes.length) ⟨∅, ∅, []⟩

end TransactionGraph

end CongestionControl.Pevm
