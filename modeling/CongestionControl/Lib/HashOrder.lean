import Mathlib.Data.Finmap
import Mathlib.Data.List.Sort
import Mathlib.Tactic

/-!
# Hash tables and their iteration order

A hash map is a finite map and a hash set a finite set; neither has an order. Where a program
iterates over one, the order is an `IterOrder`: any function that lists the elements of a finite
set, each once.
-/

abbrev HashMap (α β : Type*) := Finmap fun _ : α => β

structure IterOrder (α : Type*) where
  toList : Finset α → List α
  coe_toList : ∀ s, (toList s : Multiset α) = s.val

namespace IterOrder

variable {α : Type*} (order : IterOrder α)

@[simp] theorem mem_toList {s : Finset α} {a : α} : a ∈ order.toList s ↔ a ∈ s := by
  rw [← Multiset.mem_coe, order.coe_toList, Finset.mem_val]

theorem nodup_toList (s : Finset α) : (order.toList s).Nodup := by
  rw [← Multiset.coe_nodup, order.coe_toList]
  exact s.nodup

def sorted [LinearOrder α] : IterOrder α where
  toList s := Quot.liftOn s.val (List.insertionSort (· ≤ ·)) fun l l' h =>
    List.Perm.eq_of_pairwise' (List.pairwise_insertionSort _ l) (List.pairwise_insertionSort _ l')
      (((List.perm_insertionSort _ l).trans h).trans (List.perm_insertionSort _ l').symm)
  coe_toList := by
    rintro ⟨⟨l⟩, h⟩
    exact Quot.sound (List.perm_insertionSort _ l)

theorem pairwise_sorted [LinearOrder α] (s : Finset α) : (sorted.toList s).Pairwise (· ≤ ·) := by
  obtain ⟨⟨l⟩, h⟩ := s
  exact List.pairwise_insertionSort _ l

def reversed : IterOrder α where
  toList s := (order.toList s).reverse
  coe_toList s := by rw [Multiset.coe_reverse, order.coe_toList]

/-- The entries of a map in the order of its keys. -/
def entries [DecidableEq α] {β : Type*} (m : HashMap α β) : List (α × β) :=
  (order.toList m.keys).filterMap fun a => (m.lookup a).map (a, ·)

theorem mem_entries [DecidableEq α] {β : Type*} {m : HashMap α β} {p : α × β} :
    p ∈ order.entries m ↔ m.lookup p.1 = some p.2 := by
  obtain ⟨a, b⟩ := p
  simp only [entries, List.mem_filterMap, mem_toList, Option.map_eq_some_iff, Prod.mk.injEq]
  constructor
  · rintro ⟨a', -, b', hb, rfl, rfl⟩
    exact hb
  · intro h
    exact ⟨a, Finmap.mem_keys.mpr (Finmap.mem_iff.mpr ⟨b, h⟩), b, h, rfl, rfl⟩

theorem nodup_entries [DecidableEq α] {β : Type*} (m : HashMap α β) : (order.entries m).Nodup := by
  refine (order.nodup_toList _).filterMap fun a a' p hp hp' => ?_
  obtain ⟨b, -, rfl⟩ := Option.map_eq_some_iff.mp hp
  obtain ⟨b', -, heq⟩ := Option.map_eq_some_iff.mp hp'
  exact (congrArg Prod.fst heq).symm

/-- The rule for a loop over the entries of a map that changes, at each entry, the other map only at
the key of the entry: every key of the other map is changed at most once. -/
theorem lookup_foldl_entries [DecidableEq α] {β γ : Type*} {f : HashMap α γ → α × β → HashMap α γ}
    {g : α → β → Option γ → Option γ}
    (hf : ∀ m a b x, (f m (a, b)).lookup x = if x = a then g a b (m.lookup a) else m.lookup x)
    (entries' : HashMap α β) (m : HashMap α γ) (a : α) :
    ((order.entries entries').foldl f m).lookup a =
      (entries'.lookup a).elim (m.lookup a) fun b => g a b (m.lookup a) := by
  have hrun : ∀ (l : List α), l.Nodup → ∀ m : HashMap α γ,
      ((l.filterMap fun a => (entries'.lookup a).map (a, ·)).foldl f m).lookup a =
        if a ∈ l then (entries'.lookup a).elim (m.lookup a) fun b => g a b (m.lookup a)
        else m.lookup a := by
    intro l hl
    induction l with
    | nil => simp
    | cons k l ih =>
      intro m
      obtain ⟨hk, hl⟩ := List.nodup_cons.mp hl
      cases hlook : entries'.lookup k with
      | none =>
        rw [List.filterMap_cons_none (by simp [hlook]), ih hl]
        by_cases hak : a = k
        · subst hak
          simp [hk, hlook]
        · simp [hak]
      | some b =>
        rw [List.filterMap_cons_some (b := (k, b)) (by simp [hlook]), List.foldl_cons, ih hl, hf]
        by_cases hak : a = k
        · subst hak
          simp [hk, hlook]
        · simp [hak]
  have hmem := hrun _ (order.nodup_toList entries'.keys) m
  rw [entries, hmem]
  by_cases ha : a ∈ order.toList entries'.keys
  · rw [if_pos ha]
  · rw [if_neg ha]
    rw [mem_toList] at ha
    rw [Finmap.lookup_eq_none.mpr ha]
    rfl

end IterOrder
