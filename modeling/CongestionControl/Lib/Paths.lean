import Mathlib.Algebra.GroupWithZero.Nat
import Mathlib.Data.Finset.Card
import Mathlib.Data.Set.Finite.Basic
import Mathlib.Logic.Relation
import Mathlib.Order.Bounds.Basic
import Mathlib.Order.WellFoundedSet

/-!
# Directed paths and cycles

A relation is acyclic if no vertex reaches itself in one or more steps. A set of vertices that is
closed under steps and contains no cycle grows by a vertex all of whose successors are in it.
-/

namespace Paths

open Relation

variable {ι : Type*} {R : ι → ι → Prop}

def Acyclic (R : ι → ι → Prop) : Prop := ∀ x, ¬TransGen R x x

theorem Acyclic.swap (h : Acyclic R) : Acyclic (Function.swap R) :=
  fun x hx => h x (transGen_swap.mp hx)

theorem acyclic_of_lt {rank : ι → Nat} (h : ∀ x y, R x y → rank x < rank y) : Acyclic R := by
  intro x hx
  have hlt : ∀ y, TransGen R x y → rank x < rank y := by
    intro y hy
    induction hy with
    | single hxy => exact h _ _ hxy
    | tail _ hyz ih => exact ih.trans (h _ _ hyz)
  exact lt_irrefl _ (hlt x hx)

/-- With finitely many vertices that have a successor, every walk ends. -/
theorem Acyclic.wellFounded (h : Acyclic R) {s : Set ι} (hs : s.Finite)
    (hsub : ∀ x y, R x y → x ∈ s) : WellFounded fun y x => R x y := by
  let lt : ι → ι → Prop := fun y x => TransGen R x y
  have : IsStrictOrder ι lt :=
    { irrefl := h
      trans := fun _ _ _ hab hbc => hbc.trans hab }
  have hon : s.WellFoundedOn lt := hs.wellFoundedOn
  have hout : ∀ x ∉ s, Acc (fun y x => R x y) x :=
    fun x hx => ⟨x, fun y hxy => absurd (hsub x y hxy) hx⟩
  have hin : ∀ x ∈ s, Acc (fun y x => R x y) x := by
    intro x hx
    refine hon.induction hx fun x _ ih => ⟨x, fun y hxy => ?_⟩
    by_cases hy : y ∈ s
    · exact ih y hy (TransGen.single hxy)
    · exact hout y hy
  exact ⟨fun x => (Classical.em (x ∈ s)).elim (hin x) (hout x)⟩

structure Settled (R : ι → ι → Prop) (done : Set ι) : Prop where
  closed : ∀ x ∈ done, ∀ y, R x y → y ∈ done
  acyclic : ∀ x ∈ done, ¬TransGen R x x

theorem Settled.empty : Settled R ∅ where
  closed _ hx := hx.elim
  acyclic _ hx := hx.elim

theorem Settled.closed_transGen {done : Set ι} (h : Settled R done) {x y : ι} (hx : x ∈ done)
    (hxy : TransGen R x y) : y ∈ done := by
  induction hxy with
  | single hxy => exact h.closed _ hx _ hxy
  | tail _ hyz ih => exact h.closed _ ih _ hyz

/-- A vertex is settled once its successors are. -/
theorem Settled.insert {done : Set ι} (h : Settled R done) {x : ι} (hx : x ∉ done)
    (hsucc : ∀ y, R x y → y ∈ done) : Settled R (Insert.insert x done) := by
  constructor
  · rintro y (rfl | hy) z hyz
    · exact .inr (hsucc z hyz)
    · exact .inr (h.closed y hy z hyz)
  · rintro y (rfl | hy) hcycle
    · -- A cycle through the new vertex would come back to it from the settled part.
      rcases (TransGen.head'_iff).mp hcycle with ⟨z, hyz, hzy⟩
      rcases reflTransGen_iff_eq_or_transGen.mp hzy with rfl | hzy
      · exact hx (hsucc y hyz)
      · exact hx (h.closed_transGen (hsucc z hyz) hzy)
    · exact h.acyclic y hy hcycle

inductive IsPath (R : ι → ι → Prop) : ι → List ι → Prop
  | single (x : ι) : IsPath R x [x]
  | cons {x y : ι} {l : List ι} : R x y → IsPath R y l → IsPath R x (x :: l)

theorem IsPath.reaches {x y : ι} {l : List ι} (h : IsPath R x l) (hy : y ∈ l) :
    ReflTransGen R x y := by
  induction h with
  | single x => rw [List.mem_singleton.mp hy]
  | cons hxz _ ih =>
    rcases List.mem_cons.mp hy with rfl | hy
    · exact .refl
    · exact .head hxz (ih hy)

theorem IsPath.nodup {x : ι} {l : List ι} (h : IsPath R x l) (hacyc : Acyclic R) : l.Nodup := by
  induction h with
  | single x => exact List.nodup_singleton x
  | cons hxy hl ih =>
    refine List.nodup_cons.mpr ⟨fun hx => ?_, ih⟩
    exact hacyc _ (.head' hxy (hl.reaches hx))

def weights (R : ι → ι → Prop) (weight : ι → Nat) (x : ι) : Set Nat :=
  {w | ∃ l, IsPath R x l ∧ w = (l.map weight).sum}

/-- The heaviest path from a vertex goes on with the heaviest path from a successor. -/
theorem isGreatest_weights {weight heaviest : ι → Nat} {x : ι} {m : Nat}
    (hsucc : ∀ y, R x y → IsGreatest (weights R weight y) (heaviest y))
    (hle : ∀ y, R x y → heaviest y ≤ m) (hm : m = 0 ∨ ∃ y, R x y ∧ heaviest y = m) :
    IsGreatest (weights R weight x) (weight x + m) := by
  constructor
  · rcases hm with rfl | ⟨y, hxy, rfl⟩
    · exact ⟨[x], .single x, by simp⟩
    · obtain ⟨l, hl, hw⟩ := (hsucc y hxy).1
      exact ⟨x :: l, .cons hxy hl, by simp [hw]⟩
  · rintro w ⟨l, hl, rfl⟩
    cases hl with
    | single => simp
    | cons hxy hl =>
      have hmax := (hsucc _ hxy).2 ⟨_, hl, rfl⟩
      have hbound := hle _ hxy
      rw [List.map_cons, List.sum_cons]
      omega

theorem card_sdiff_insert_lt [DecidableEq ι] {s visited : Finset ι} {x : ι} (hx : x ∈ s)
    (hnew : x ∉ visited) : (s \ Insert.insert x visited).card < (s \ visited).card := by
  refine Finset.card_lt_card (Finset.ssubset_iff_subset_ne.mpr ⟨?_, fun heq => ?_⟩)
  · exact Finset.sdiff_subset_sdiff le_rfl (Finset.subset_insert x visited)
  · have hmem : x ∈ s \ visited := Finset.mem_sdiff.mpr ⟨hx, hnew⟩
    rw [← heq] at hmem
    exact (Finset.mem_sdiff.mp hmem).2 (Finset.mem_insert_self x visited)

end Paths
