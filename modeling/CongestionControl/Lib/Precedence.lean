import Mathlib.Data.List.Chain
import Mathlib.Data.List.Nodup

/-!
# Precedence in a list

`[x, y] <+ l` says that some occurrence of `x` in `l` comes before some occurrence of `y`. In a list
without duplicates this is a strict order.
-/

namespace List

variable {α β : Type*} {l : List α} {x y z : α}

theorem pair_sublist_iff : [x, y] <+ l ↔ ∃ l₁ l₂, l = l₁ ++ l₂ ∧ x ∈ l₁ ∧ y ∈ l₂ := by
  rw [← singleton_append, append_sublist_iff]
  simp only [singleton_sublist]

theorem pair_sublist_append {l₁ l₂ : List α} (hx : x ∈ l₁) (hy : y ∈ l₂) : [x, y] <+ l₁ ++ l₂ :=
  pair_sublist_iff.mpr ⟨l₁, l₂, rfl, hx, hy⟩

theorem pair_sublist_iff_getElem? :
    [x, y] <+ l ↔ ∃ i j : Nat, i < j ∧ l[i]? = some x ∧ l[j]? = some y := by
  rw [pair_sublist_iff]
  constructor
  · rintro ⟨l₁, l₂, rfl, hx, hy⟩
    obtain ⟨i, hi⟩ := mem_iff_getElem?.mp hx
    obtain ⟨j, hj⟩ := mem_iff_getElem?.mp hy
    have hlt : i < l₁.length := (getElem?_eq_some_iff.mp hi).1
    refine ⟨i, l₁.length + j, by omega, ?_, ?_⟩
    · rwa [getElem?_append_left hlt]
    · rwa [getElem?_append_right (Nat.le_add_right _ _), Nat.add_sub_cancel_left]
  · rintro ⟨i, j, hij, hx, hy⟩
    refine ⟨l.take j, l.drop j, (take_append_drop j l).symm, ?_, ?_⟩
    · exact mem_iff_getElem?.mpr ⟨i, by rwa [getElem?_take_of_lt hij]⟩
    · exact mem_iff_getElem?.mpr ⟨0, by rwa [getElem?_drop, Nat.add_zero]⟩

theorem Nodup.getElem?_unique (h : l.Nodup) {i j : Nat} (hi : l[i]? = some x)
    (hj : l[j]? = some x) : i = j :=
  (getElem?_inj (getElem?_eq_some_iff.mp hi).1 h).mp (hi.trans hj.symm)

theorem Nodup.pair_sublist_trans (h : l.Nodup) (hxy : [x, y] <+ l) (hyz : [y, z] <+ l) :
    [x, z] <+ l := by
  obtain ⟨i, j, hij, hi, hj⟩ := pair_sublist_iff_getElem?.mp hxy
  obtain ⟨j', k, hjk, hj', hk⟩ := pair_sublist_iff_getElem?.mp hyz
  cases h.getElem?_unique hj hj'
  exact pair_sublist_iff_getElem?.mpr ⟨i, k, hij.trans hjk, hi, hk⟩

theorem Nodup.pair_sublist_of_transGen (h : l.Nodup) {r : α → α → Prop}
    (hr : ∀ a b, r a b → [a, b] <+ l) (hxy : Relation.TransGen r x y) : [x, y] <+ l := by
  induction hxy with
  | single hab => exact hr _ _ hab
  | tail _ hbc ih => exact h.pair_sublist_trans ih (hr _ _ hbc)

/-- The elements that satisfy a predicate form a chain if each of them is related to the next one,
however many other elements there are in between. -/
theorem isChain_filter_iff {r : α → α → Prop} {p : α → Bool} :
    (l.filter p).IsChain r ↔ ∀ a mid b, a :: (mid ++ [b]) <:+: l → p a = true → p b = true →
      (∀ m ∈ mid, p m = false) → r a b := by
  constructor
  · intro h a mid b hin ha hb hmid
    have hnil : mid.filter p = [] :=
      filter_eq_nil_iff.mpr fun m hm => by rw [hmid m hm]; exact Bool.false_ne_true
    have hpair : (a :: (mid ++ [b])).filter p = [a, b] := by
      simp [ha, hb, hnil]
    obtain ⟨s, t, heq⟩ := hin.filter p
    rw [hpair] at heq
    rw [← heq] at h
    exact isChain_pair.mp h.left_of_append.right_of_append
  · intro h
    induction l with
    | nil => exact .nil
    | cons x l ih =>
      have hrest : (l.filter p).IsChain r :=
        ih fun a mid b hin => h a mid b (hin.trans (suffix_cons x l).isInfix)
      by_cases hx : p x = true
      · rw [filter_cons_of_pos hx, isChain_cons]
        refine ⟨fun y hy => ?_, hrest⟩
        rw [head?_filter] at hy
        obtain ⟨hpy, mid, rest, hl, hmid⟩ := find?_eq_some_iff_append.mp hy
        refine h x mid y ⟨[], rest, by simp [hl]⟩ hx hpy fun m hm => ?_
        simpa using hmid m hm
      · rwa [filter_cons_of_neg hx]

end List
