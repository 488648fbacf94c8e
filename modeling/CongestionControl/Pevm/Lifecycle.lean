import CongestionControl.Pevm.Types

/-!
# The life of an incarnation

At every moment somebody answers for the next move of a transaction: the worker that executes it, the
worker that aborted it, or the transaction in whose list of dependents it waits. `LifeInv` says that
nobody else does; `Owned` that somebody does. A `role` for each worker stands for where it is.
-/

namespace CongestionControl.Pevm

variable {ω : Type}

inductive Role
  | free
  | executing (version : TxVersion)
  /-- A transaction it aborted after a failed validation and has not made ready yet. -/
  | aborting (txIdx : TxIdx)
  deriving DecidableEq, Repr

/-- At most one party answers for a transaction, and its status fits that party. -/
structure LifeInv (status : TxIdx → TxStatus) (dependents : TxIdx → List TxIdx) (role : ω → Role) :
    Prop where
  exec_status : ∀ {w v}, role w = .executing v → status v.txIdx = ⟨v.txIncarnation, .executing⟩
  exec_unique : ∀ {w w' v v'}, role w = .executing v → role w' = .executing v' →
    v.txIdx = v'.txIdx → w = w'
  abort_status : ∀ {w i}, role w = .aborting i → (status i).status = .aborting
  abort_unique : ∀ {w w' i}, role w = .aborting i → role w' = .aborting i → w = w'
  dep_status : ∀ {b i}, i ∈ dependents b → (status i).status = .aborting
  dep_nodup : ∀ b, (dependents b).Nodup
  dep_unique : ∀ {b b' i}, i ∈ dependents b → i ∈ dependents b' → b = b'
  dep_free : ∀ {b i w}, i ∈ dependents b → role w ≠ .aborting i

structure Unheld (dependents : TxIdx → List TxIdx) (role : ω → Role) (i : TxIdx) : Prop where
  exec : ∀ {w v}, role w = .executing v → v.txIdx ≠ i
  abort : ∀ {w}, role w ≠ .aborting i
  dep : ∀ {b}, i ∉ dependents b

structure OwnedAt (status : TxIdx → TxStatus) (dependents : TxIdx → List TxIdx) (role : ω → Role)
    (i : TxIdx) : Prop where
  executing : (status i).status = .executing → ∃ w, role w = .executing ⟨i, (status i).incarnation⟩
  aborting : (status i).status = .aborting → (∃ b, i ∈ dependents b) ∨ ∃ w, role w = .aborting i

abbrev Owned (status : TxIdx → TxStatus) (dependents : TxIdx → List TxIdx) (role : ω → Role) :
    Prop := ∀ i, OwnedAt status dependents role i

/-- Exactly one party answers for each executing or aborting transaction, and none for the others. -/
structure LifeCycle (status : TxIdx → TxStatus) (dependents : TxIdx → List TxIdx)
    (role : ω → Role) : Prop where
  life : LifeInv status dependents role
  owned : Owned status dependents role

def resumed (status : TxIdx → TxStatus) (list : List TxIdx) (i : TxIdx) : TxStatus :=
  if i ∈ list then ⟨(status i).incarnation + 1, .readyToExecute⟩ else status i

/-- The versions issued for execution so far, oldest first: the incarnations of a transaction appear
in increasing order, none above the current one, and a ready incarnation has not been issued. -/
structure IssueInv (status : TxIdx → TxStatus) (issued : List TxVersion) : Prop where
  sorted : issued.Pairwise fun a b => a.txIdx = b.txIdx → a.txIncarnation < b.txIncarnation
  le : ∀ v ∈ issued, v.txIncarnation ≤ (status v.txIdx).incarnation
  fresh : ∀ v ∈ issued, (status v.txIdx).status = .readyToExecute →
    v.txIncarnation < (status v.txIdx).incarnation

end CongestionControl.Pevm
