import Mathlib.Data.List.Perm.Basic
import Mathlib.Data.List.Nodup
import Mathlib.Data.List.Range
import Mathlib.Tactic

/-!
# Items in numbered slots

Items are placed in slots one after another. The items that use one resource stand at least a given
distance apart if each new item is placed behind the last user of every resource that it uses.
-/

namespace Placement

variable {ι κ : Type*}

def slot (l : List (Nat × ι)) (p : Nat) : Option (Nat × ι) := l.find? fun x => x.1 = p

def bySlot (n : Nat) (l : List (Nat × ι)) : List (Nat × ι) := (List.range n).filterMap (slot l)

variable {l : List (Nat × ι)} {x : Nat × ι} {p q n c : Nat} {i : ι}

theorem mem_of_slot (h : slot l p = some x) : x ∈ l ∧ x.1 = p :=
  ⟨List.mem_of_find?_eq_some h, by simpa using List.find?_some h⟩

theorem slot_eq_none_iff : slot l p = none ↔ ∀ x ∈ l, x.1 ≠ p := by
  simp [slot, List.find?_eq_none]

theorem slot_eq_some_iff (hl : (l.map Prod.fst).Nodup) : slot l p = some x ↔ x ∈ l ∧ x.1 = p := by
  refine ⟨mem_of_slot, fun ⟨hx, hp⟩ => ?_⟩
  cases hs : slot l p with
  | none => exact absurd hp (slot_eq_none_iff.mp hs x hx)
  | some y =>
    obtain ⟨hy, hyp⟩ := mem_of_slot hs
    rw [List.inj_on_of_nodup_map hl hy hx (hyp.trans hp.symm)]

theorem slot_append_self (h : slot l p = none) : slot (l ++ [(p, i)]) p = some (p, i) := by
  unfold slot at *
  rw [List.find?_append, h]
  simp

theorem slot_append_of_ne (h : q ≠ p) : slot (l ++ [(p, i)]) q = slot l q := by
  unfold slot
  simp [h.symm]

theorem nodup_append (hl : (l.map Prod.fst).Nodup) (h : slot l p = none) :
    ((l ++ [(p, i)]).map Prod.fst).Nodup := by
  rw [List.map_append, List.nodup_append]
  refine ⟨hl, List.nodup_singleton _, ?_⟩
  rintro a ha b hb rfl
  obtain ⟨x, hx, rfl⟩ := List.mem_map.mp ha
  exact slot_eq_none_iff.mp h x hx (by simpa using hb)

theorem pairwise_bySlot : (bySlot n l).Pairwise fun x y => x.1 < y.1 := by
  refine List.Pairwise.filterMap (slot l) ?_ (List.pairwise_lt_range)
  intro p q hpq x hx y hy
  rw [(mem_of_slot hx).2, (mem_of_slot hy).2]
  exact hpq

theorem perm_bySlot (hl : (l.map Prod.fst).Nodup) (hn : ∀ x ∈ l, x.1 < n) : (bySlot n l).Perm l := by
  refine (List.perm_ext_iff_of_nodup ?_ hl.of_map).mpr fun x => ?_
  · refine List.Pairwise.imp (fun {x y} hxy => ?_) (pairwise_bySlot)
    rintro rfl
    exact Nat.lt_irrefl _ hxy
  · simp only [bySlot, List.mem_filterMap, List.mem_range, slot_eq_some_iff hl]
    exact ⟨fun ⟨p, _, hx, _⟩ => hx, fun hx => ⟨x.1, hn x hx, hx, rfl⟩⟩

theorem filter_bySlot (hl : (l.map Prod.fst).Nodup) (hn : ∀ x ∈ l, x.1 < n) {q : Nat × ι → Bool}
    (h : (l.filter q).Pairwise fun x y => x.1 < y.1) : (bySlot n l).filter q = l.filter q := by
  have hasymm : ∀ x y : Nat × ι, x ∈ (bySlot n l).filter q → y ∈ l.filter q →
      x.1 < y.1 → y.1 < x.1 → x = y :=
    fun x y _ _ hxy hyx => absurd hxy (Nat.lt_asymm hyx)
  exact List.Perm.eq_of_pairwise hasymm (pairwise_bySlot.filter q) h
    ((perm_bySlot hl hn).filter q)

section Fills

variable {τ : Type*} {items : ι → Option τ} {slots : List (Option τ)} {v : τ}

/-- An array of `n` slots holds the placed items, each slot at most one. -/
structure Fills (items : ι → Option τ) (n : Nat) (slots : List (Option τ)) (l : List (Nat × ι)) :
    Prop where
  length : slots.length = n
  slot : ∀ p < n, slots[p]? = some ((Placement.slot l p).bind fun x => items x.2)
  once : (l.map Prod.fst).Nodup
  inside : ∀ x ∈ l, x.1 < n
  known : ∀ x ∈ l, (items x.2).isSome = true

namespace Fills

theorem nil : Fills items n (List.replicate n none) [] where
  length := List.length_replicate
  slot p hp := by simp [Placement.slot, hp]
  once := List.nodup_nil
  inside := by simp
  known := by simp

variable (h : Fills items n slots l)
include h

theorem free_iff : slots[p]? = some none ↔ p < n ∧ Placement.slot l p = none := by
  constructor
  · intro hfree
    have hp : p < n := by
      rw [← h.length]
      exact (List.getElem?_eq_some_iff.mp hfree).1
    refine ⟨hp, ?_⟩
    rw [h.slot p hp] at hfree
    cases hs : Placement.slot l p with
    | none => rfl
    | some x =>
      obtain ⟨a, ha⟩ := Option.isSome_iff_exists.mp (h.known x (mem_of_slot hs).1)
      rw [hs, Option.bind_some, ha] at hfree
      cases hfree
  · rintro ⟨hp, hs⟩
    rw [h.slot p hp, hs, Option.bind_none]

theorem place (hfree : slots[p]? = some none) (hv : items i = some v) :
    Fills items n (slots.set p (some v)) (l ++ [(p, i)]) := by
  obtain ⟨hp, hnone⟩ := h.free_iff.mp hfree
  have hlt : p < slots.length := by rwa [h.length]
  have hmem : ∀ {P : Nat × ι → Prop}, (∀ x ∈ l, P x) → P (p, i) → ∀ x ∈ l ++ [(p, i)], P x := by
    intro P hP hnew x hx
    rcases List.mem_append.mp hx with hx | hx
    · exact hP x hx
    · exact List.mem_singleton.mp hx ▸ hnew
  constructor
  · exact (List.length_set ..).trans h.length
  · intro q hq
    by_cases hqp : q = p
    · subst hqp
      rw [slot_append_self hnone, List.getElem?_set_self hlt, Option.bind_some, hv]
    · rw [slot_append_of_ne hqp, List.getElem?_set_ne (Ne.symm hqp)]
      exact h.slot q hq
  · exact nodup_append h.once hnone
  · exact hmem h.inside hp
  · exact hmem h.known (by rw [hv]; rfl)

theorem filter_isSome : slots.filter Option.isSome = (bySlot n l).map fun x => items x.2 := by
  have hslots : slots = (List.range n).map fun p =>
      (Placement.slot l p).bind fun x => items x.2 := by
    refine List.ext_getElem? fun p => ?_
    by_cases hp : p < n
    · rw [h.slot p hp, List.getElem?_map, List.getElem?_range hp, Option.map_some]
    · rw [List.getElem?_eq_none (h.length ▸ Nat.le_of_not_lt hp),
        List.getElem?_eq_none (by simpa using hp)]
  rw [hslots, bySlot]
  generalize List.range n = ps
  induction ps with
  | nil => rfl
  | cons p ps ih =>
    rw [List.map_cons, List.filterMap_cons]
    cases hs : Placement.slot l p with
    | none => simpa using ih
    | some x =>
      have hx := h.known x (mem_of_slot hs).1
      simpa [hx] using ih

theorem count_none [DecidableEq τ] : slots.count none + l.length = n := by
  have hlen : (slots.filter Option.isSome).length = l.length := by
    rw [h.filter_isSome, List.length_map, (perm_bySlot h.once h.inside).length_eq]
  have hsplit := List.length_eq_countP_add_countP Option.isSome (l := slots)
  have hcount : slots.countP (fun a => decide ¬a.isSome = true) = slots.count none := by
    refine List.countP_congr fun a _ => ?_
    cases a <;> simp
  rw [List.countP_eq_length_filter, h.length] at hsplit
  omega

end Fills

end Fills

variable [DecidableEq κ] (uses : ι → List κ)

def users (k : κ) (l : List (Nat × ι)) : List (Nat × ι) := l.filter fun x => k ∈ uses x.2

def last (l : List (Nat × ι)) (k : κ) : Option Nat := (users uses k l).getLast?.map Prod.fst

def Spaced (c : Nat) (l : List (Nat × ι)) : Prop :=
  ∀ k, (users uses k l).Pairwise fun x y => x.1 + c ≤ y.1

variable {uses} {k : κ}

theorem users_append_of_mem (h : k ∈ uses i) :
    users uses k (l ++ [(p, i)]) = users uses k l ++ [(p, i)] := by
  simp [users, h]

theorem users_append_of_not_mem (h : k ∉ uses i) :
    users uses k (l ++ [(p, i)]) = users uses k l := by
  simp [users, h]

theorem last_append_of_mem (h : k ∈ uses i) : last uses (l ++ [(p, i)]) k = some p := by
  simp [last, users_append_of_mem h]

theorem last_append_of_not_mem (h : k ∉ uses i) :
    last uses (l ++ [(p, i)]) k = last uses l k := by
  rw [last, users_append_of_not_mem h, last]

theorem spaced_nil : Spaced uses c [] := fun _ => .nil

theorem Spaced.le_last (h : Spaced uses c l) (hx : x ∈ users uses k l) :
    ∃ q, last uses l k = some q ∧ x.1 ≤ q := by
  have hne : users uses k l ≠ [] := List.ne_nil_of_mem hx
  refine ⟨((users uses k l).getLast hne).1, by rw [last, List.getLast?_eq_some_getLast hne]; rfl, ?_⟩
  have hk := h k
  rw [← List.dropLast_append_getLast hne] at hx hk
  rcases List.mem_append.mp hx with hx | hx
  · have hle := (List.pairwise_append.mp hk).2.2 x hx _ (List.mem_singleton_self _)
    omega
  · rw [List.mem_singleton.mp hx]

theorem Spaced.append (h : Spaced uses c l)
    (hlast : ∀ k ∈ uses i, ∀ q, last uses l k = some q → q + c ≤ p) :
    Spaced uses c (l ++ [(p, i)]) := by
  intro k
  by_cases hk : k ∈ uses i
  · rw [users_append_of_mem hk, List.pairwise_append]
    refine ⟨h k, List.pairwise_singleton _ _, fun x hx y hy => ?_⟩
    rw [List.mem_singleton.mp hy]
    obtain ⟨q, hq, hle⟩ := h.le_last hx
    exact (Nat.add_le_add_right hle c).trans (hlast k hk q hq)
  · rw [users_append_of_not_mem hk]
    exact h k

theorem Spaced.apart (h : Spaced uses c l) {y : Nat × ι} (hx : x ∈ l) (hy : y ∈ l) (hne : x ≠ y)
    (hkx : k ∈ uses x.2) (hky : k ∈ uses y.2) : x.1 + c ≤ y.1 ∨ y.1 + c ≤ x.1 := by
  have hmem : ∀ z ∈ l, k ∈ uses z.2 → z ∈ users uses k l :=
    fun z hz hk => List.mem_filter.mpr ⟨hz, decide_eq_true hk⟩
  have hor : (users uses k l).Pairwise fun x y => x.1 + c ≤ y.1 ∨ y.1 + c ≤ x.1 :=
    (h k).imp .inl
  have hsymm : Std.Symm fun x y : Nat × ι => x.1 + c ≤ y.1 ∨ y.1 + c ≤ x.1 := ⟨fun _ _ => Or.symm⟩
  exact hor.forall (hmem x hx hkx) (hmem y hy hky) hne

variable {α : Type*} {xs ys : List α} {chosen : List Nat}

def leftover (chosen : List Nat) (xs : List α) : List α :=
  (xs.zipIdx.filter fun x => x.2 ∉ chosen).map Prod.fst

theorem leftover_nil : leftover [] xs = xs := by
  simp [leftover]

theorem leftover_congr {chosen' : List Nat} (h : chosen.Perm chosen') :
    leftover chosen xs = leftover chosen' xs := by
  simp only [leftover, h.mem_iff]

theorem leftover_sublist : (leftover chosen xs).Sublist xs := by
  have hsub := (List.filter_sublist (p := fun x => decide (x.2 ∉ chosen)) (l := xs.zipIdx)).map Prod.fst
  rwa [List.zipIdx_map_fst] at hsub

theorem leftover_append (h : ∀ d ∈ chosen, d < xs.length) :
    leftover chosen (xs ++ ys) = leftover chosen xs ++ ys := by
  have hbehind : (ys.zipIdx xs.length).filter (fun x => x.2 ∉ chosen) = ys.zipIdx xs.length := by
    refine List.filter_eq_self.mpr fun x hx => decide_eq_true fun hmem => ?_
    exact absurd (h _ hmem) (Nat.not_lt_of_le (List.le_snd_of_mem_zipIdx hx))
  rw [leftover, List.zipIdx_append, List.filter_append, List.map_append, Nat.zero_add, hbehind,
    List.zipIdx_map_fst]
  rfl

theorem leftover_concat {x : α} : leftover (xs.length :: chosen) (xs ++ [x]) = leftover chosen xs := by
  have hfront : xs.zipIdx.filter (fun x => x.2 ∉ xs.length :: chosen) =
      xs.zipIdx.filter fun x => x.2 ∉ chosen := by
    refine List.filter_congr fun x hx => ?_
    have hne : x.2 ≠ xs.length := Nat.ne_of_lt (List.snd_lt_of_mem_zipIdx hx)
    simp [hne]
  rw [leftover, List.zipIdx_append, List.filter_append, hfront]
  simp [leftover]

theorem foldl_eraseIdx (hsorted : chosen.Pairwise (· > ·)) (h : ∀ d ∈ chosen, d < xs.length) :
    chosen.foldl (fun xs d => if d < xs.length then xs.eraseIdx d else xs) xs =
      leftover chosen xs := by
  induction chosen generalizing xs with
  | nil => exact leftover_nil.symm
  | cons d ds ih =>
    obtain ⟨hd, hds⟩ := List.pairwise_cons.mp hsorted
    have hlt := h d List.mem_cons_self
    obtain ⟨xs, x, ys, rfl, rfl⟩ : ∃ front x back, xs = front ++ x :: back ∧ front.length = d :=
      ⟨xs.take d, xs[d], xs.drop (d + 1), by simp, by simp [Nat.le_of_lt hlt]⟩
    have herase : (xs ++ x :: ys).eraseIdx xs.length = xs ++ ys := by
      rw [List.eraseIdx_append_of_length_le (Nat.le_refl _)]
      simp
    have hrest : leftover (xs.length :: ds) (xs ++ x :: ys) = leftover ds xs ++ ys := by
      rw [List.append_cons, leftover_append, leftover_concat]
      simp only [List.length_append, List.length_singleton, List.mem_cons]
      rintro d' (rfl | hd')
      · exact Nat.lt_succ_self _
      · exact Nat.lt_succ_of_lt (hd d' hd')
    rw [List.foldl_cons, if_pos hlt, herase, ih hds ?_, leftover_append hd, hrest]
    intro d' hd'
    rw [List.length_append]
    exact Nat.lt_add_right _ (hd d' hd')

theorem perm_leftover (hchosen : chosen.Nodup) :
    (chosen.filterMap (xs[·]?) ++ leftover chosen xs).Perm xs := by
  have hnodup : xs.zipIdx.Nodup := List.Nodup.of_map Prod.snd (by
    rw [List.zipIdx_map_snd]
    exact List.nodup_range')
  have hperm : (chosen.filterMap fun d => (xs[d]?).map (·, d)).Perm
      (xs.zipIdx.filter fun x => x.2 ∈ chosen) := by
    refine (List.perm_ext_iff_of_nodup ?_ (hnodup.filter _)).mpr fun x => ?_
    · refine hchosen.filterMap fun d d' x hx hx' => ?_
      simp only [Option.mem_def, Option.map_eq_some_iff] at hx hx'
      obtain ⟨a, -, rfl⟩ := hx
      obtain ⟨a', -, heq⟩ := hx'
      exact (congrArg Prod.snd heq).symm
    · simp only [List.mem_filterMap, Option.map_eq_some_iff, List.mem_filter, decide_eq_true_eq,
        List.mem_zipIdx_iff_getElem?]
      constructor
      · rintro ⟨d, hd, a, ha, rfl⟩
        exact ⟨ha, hd⟩
      · rintro ⟨ha, hd⟩
        exact ⟨x.2, hd, x.1, ha, rfl⟩
  have hfst : (chosen.filterMap fun d => (xs[d]?).map (·, d)).map Prod.fst =
      chosen.filterMap (xs[·]?) := by
    rw [List.map_filterMap]
    simp [Function.comp_def]
  have hsplit : (xs.zipIdx.filter (fun x => x.2 ∈ chosen) ++
      xs.zipIdx.filter fun x => x.2 ∉ chosen).Perm xs.zipIdx := by
    simpa using List.filter_append_perm (fun x : α × Nat => decide (x.2 ∈ chosen)) xs.zipIdx
  rw [← hfst, leftover, ← List.map_append]
  refine (((hperm.append_right _).trans hsplit).map Prod.fst).trans ?_
  rw [List.zipIdx_map_fst]

theorem perm_map_some_leftover (hchosen : chosen.Nodup) (h : ∀ d ∈ chosen, d < xs.length) :
    (chosen.map (xs[·]?) ++ (leftover chosen xs).map some).Perm (xs.map some) := by
  have hsome : ∀ {ds : List Nat}, (∀ d ∈ ds, d < xs.length) →
      ds.map (xs[·]?) = (ds.filterMap (xs[·]?)).map some := by
    intro ds hds
    induction ds with
    | nil => rfl
    | cons d ds ih =>
      have hd := List.getElem?_eq_getElem (hds d List.mem_cons_self)
      rw [List.map_cons, ih fun d' hd' => hds d' (List.mem_cons_of_mem d hd'), hd,
        List.filterMap_cons_some hd, List.map_cons]
  rw [hsome h, ← List.map_append]
  exact (perm_leftover hchosen).map some

end Placement
