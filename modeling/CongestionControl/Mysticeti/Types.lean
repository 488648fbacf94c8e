import Mathlib.Order.Lattice
import Mathlib.Data.Prod.Lex

/-!
# Blocks of the DAG

The blocks of `types.rs` as far as consensus looks at them: a reference and the references that the
block includes, in order. The statements, the creation time, the epoch marker and the signature are
left out; the digest stands for all of them.
-/

namespace CongestionControl.Mysticeti

abbrev AuthorityIndex := Nat

abbrev RoundNumber := Nat

abbrev BlockDigest := Nat

structure BlockReference where
  authority : AuthorityIndex
  round : RoundNumber
  digest : BlockDigest
  deriving DecidableEq, Repr

namespace BlockReference

def default : BlockReference := ⟨0, 0, 0⟩

def key (r : BlockReference) : Nat ×ₗ Nat ×ₗ Nat := toLex (r.round, toLex (r.authority, r.digest))

theorem key_injective : Function.Injective key := by
  rintro ⟨a, r, d⟩ ⟨a', r', d'⟩ h
  have h1 : (r, toLex (a, d)) = (r', toLex (a', d')) := toLex.injective h
  obtain ⟨rfl, h2⟩ := Prod.mk.inj h1
  obtain ⟨rfl, rfl⟩ := Prod.mk.inj (toLex.injective h2)
  rfl

instance : LinearOrder BlockReference := LinearOrder.lift' key key_injective

/-- `Ord::cmp`, which compares the digest of `self` with itself. -/
def cmp (self other : BlockReference) : Ordering :=
  (compare self.round other.round).then
    ((compare self.authority other.authority).then (compare self.digest self.digest))

end BlockReference

/-- `includes` is ordered: of several references to blocks of one author and one round, the block
votes for the first. -/
structure StatementBlock where
  reference : BlockReference
  includes : List BlockReference
  deriving DecidableEq, Repr

namespace StatementBlock

def round (b : StatementBlock) : RoundNumber := b.reference.round

def author (b : StatementBlock) : AuthorityIndex := b.reference.authority

def authorRound (b : StatementBlock) : AuthorityIndex × RoundNumber := (b.author, b.round)

end StatementBlock

end CongestionControl.Mysticeti
