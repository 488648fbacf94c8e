import CongestionControl.Pevm.EngineInv

/-!
# Aborts by a stale validation

`try_validation_abort` compares the status of a transaction but not its incarnation. The engine is run
here with notes on which incarnation's read set was looked at, which change nothing in the run.
-/

namespace CongestionControl.Pevm

open Function (update)
open Transition

variable {L V ω : Type}

structure Notes where
  /-- The incarnation whose read set is in `last_locations`. -/
  recorded : TxIdx → Option TxIncarnation
  /-- The versions whose failing validation led to an abort, oldest first. -/
  aborts : List TxVersion

namespace Engine

def note (notes : Notes) : Worker L V → Worker L V → Notes
  | .running v (.done _) _, _ =>
    { notes with recorded := update notes.recorded v.txIdx (some v.txIncarnation) }
  | .refuted v, .aborting _ => { notes with aborts := notes.aborts ++ [v] }
  | _, _ => notes

def examine (notes : Notes) (examined : Option TxIncarnation) : Worker L V → Option TxIncarnation
  | .validating v => notes.recorded v.txIdx
  | _ => examined

variable [DecidableEq L]

def observed (block : Block L V) :
    Program (Shared L V × Notes) (Worker L V × Option TxIncarnation) Nat where
  shared := ((program block).shared, ⟨fun _ => none, []⟩)
  start := ((program block).start, none)
  exec g l fuel := (exec block g.1 l.1 fuel).map fun r =>
    ((r.1, note g.2 l.1 r.2), (r.2, examine g.2 l.2 l.1))

end Engine

abbrev ObservedConfig (L V ω : Type) :=
  Config (Shared L V × Notes) (Worker L V × Option TxIncarnation) ω

/-- Only the validated incarnation is aborted: `try_validation_abort` returns true only if it moves
the incarnation of the caller's version to Aborting, which is the one whose read set the caller has
found invalid, and it does so at most once for each version. -/
structure OnlyExaminedAborted (c : ObservedConfig L V ω) : Prop where
  aborted : ∀ w v examined, c.threads w = (.refuted v, examined) →
    (c.shared.1.scheduler.tryValidationAbort v).2 = true →
    (c.shared.1.scheduler.tryValidationAbort v).1.transactionsStatus v.txIdx =
      ⟨v.txIncarnation, .aborting⟩ ∧ examined = some v.txIncarnation
  once : c.shared.2.aborts.Nodup

/-- The transaction whose validation the worker has open: it is going to look at the read set, or to
abort the transaction for it. -/
def Worker.validates : Worker L V → Option TxIdx
  | .validating v | .refuted v => some v.txIdx
  | _ => none

def Worker.finishes : Worker L V → Option TxIdx
  | .recorded v _ => some v.txIdx
  | _ => none

/-- The step is not a `finish_execution` of a transaction that has a validation open. -/
def NoOpenValidation (c : ObservedConfig L V ω) (a : ω × Nat) : Prop :=
  match (c.threads a.1).1.finishes with
  | some i => ∀ w, (c.threads w).1.validates ≠ some i
  | none => True

instance [Fintype ω] (c : ObservedConfig L V ω) (a : ω × Nat) : Decidable (NoOpenValidation c a) := by
  unfold NoOpenValidation
  split <;> infer_instance

structure SafeInv (n : Nat) (s : Scheduler) (threads : ω → Worker L V) : Prop where
  blockSize : s.blockSize = n
  life : LifeInv s.transactionsStatus s.transactionsDependents fun w => (threads w).role
  dep_lt : ∀ {b i}, i ∈ s.transactionsDependents b → b < i
  bound : ∀ {w v}, (threads w).version = some v → v.txIdx < n
  blocked_lt : ∀ {w v b}, threads w = .blocked v b → b < v.txIdx

def Worker.Quiet : Worker L V → Prop
  | .polling | .left | .running _ _ _ | .finishing _ _ => True
  | _ => False

structure StepEffect (s s' : Scheduler) (l l' : Worker L V) : Prop where
  finished : ∀ {i}, s'.Finished i →
    (s.Finished i ∧
      (s'.transactionsStatus i).incarnation = (s.transactionsStatus i).incarnation) ∨
    ∃ v flags, l = .recorded v flags ∧ i = v.txIdx ∧
      (s'.transactionsStatus i).incarnation = v.txIncarnation
  advance : ∀ i, (s.transactionsStatus i).incarnation < (s'.transactionsStatus i).incarnation ∨
    ((s.transactionsStatus i).incarnation = (s'.transactionsStatus i).incarnation ∧
      ((s.transactionsStatus i).status = .aborting → (s'.transactionsStatus i).status = .aborting))
  validating : ∀ {v}, l' = .validating v →
    (s'.transactionsStatus v.txIdx).incarnation = v.txIncarnation
  refuted : ∀ {v}, l' = .refuted v → l = .validating v
  recorded : ∀ {v flags}, l' = .recorded v flags → ∃ ws readSet, l = .running v (.done ws) readSet
  aborting : ∀ {v v'}, l = .refuted v → l' = .aborting v' → s.Finished v.txIdx ∧
    s'.transactionsStatus v.txIdx = ⟨(s.transactionsStatus v.txIdx).incarnation, .aborting⟩

/-- No validation in progress concerns an incarnation that a later one has replaced. -/
structure FreshInv (n : Nat) (s : Scheduler) (notes : Notes)
    (threads : ω → Worker L V × Option TxIncarnation) : Prop where
  safe : SafeInv n s fun w => (threads w).1
  recorded : ∀ {w v flags}, (threads w).1 = .recorded v flags →
    notes.recorded v.txIdx = some v.txIncarnation
  finished : ∀ {i}, s.Finished i → notes.recorded i = some (s.transactionsStatus i).incarnation
  held : ∀ {w v}, (threads w).1 = .validating v ∨ (threads w).1 = .refuted v →
    s.Finished v.txIdx → (s.transactionsStatus v.txIdx).incarnation = v.txIncarnation
  examined : ∀ {w v}, (threads w).1 = .refuted v → s.Finished v.txIdx →
    (threads w).2 = some v.txIncarnation
  aborts : ∀ {v}, v ∈ notes.aborts →
    v.txIncarnation < (s.transactionsStatus v.txIdx).incarnation ∨
    (v.txIncarnation = (s.transactionsStatus v.txIdx).incarnation ∧
      (s.transactionsStatus v.txIdx).status = .aborting)
  once : notes.aborts.Nodup

end CongestionControl.Pevm
