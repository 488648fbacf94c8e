import CongestionControl.Mysticeti.RangeMap

/-!
# Range maps

A range map stands for a function from keys to values. `mutate_range` goes through the range piece by
piece; what one piece keeps holds at the end.
-/

namespace CongestionControl.Mysticeti

namespace RangeMap

variable {K V S : Type} [LinearOrder K] {m m' : RangeMap K V} {a b c k x : K} {v : Option V}
  {item : RangeItem K V} {s : S} {m₀ : RangeMap K V}

/-! ## The function of a range map -/

/-- Items are filed under their starts, have a value, are not empty and do not overlap. -/
structure Valid (m : RangeMap K V) : Prop where
  start : ∀ k item, m.map.lookup k = some item → item.startIncluded = k
  value : ∀ k item, m.map.lookup k = some item → item.v.isSome = true
  nonempty : ∀ k item, m.map.lookup k = some item → k < item.endExcluded
  disjoint : ∀ k item k' item', m.map.lookup k = some item → m.map.lookup k' = some item' →
    k < k' → item.endExcluded ≤ k'

def get (m : RangeMap K V) (x : K) : Option V :=
  (m.lowerBound x).bind fun (_, item) => if x < item.endExcluded then item.v else none

theorem valid_empty : Valid (empty : RangeMap K V) := ⟨nofun, nofun, nofun, nofun⟩

theorem lowerBound_cases (m : RangeMap K V) (x : K) :
    (m.lowerBound x = none ∧ ∀ k ∈ m.map, x < k) ∨
      ∃ k item, m.lowerBound x = some (k, item) ∧ m.map.lookup k = some item ∧ k ≤ x ∧
        ∀ k' ∈ m.map, k' ≤ x → k' ≤ k := by
  unfold lowerBound
  dsimp only
  split_ifs with hne
  · right
    have hmem := (m.map.keys.filter (· ≤ x)).max'_mem hne
    obtain ⟨hkeys, hle⟩ := Finset.mem_filter.mp hmem
    obtain ⟨item, hitem⟩ := Finmap.mem_iff.mp (Finmap.mem_keys.mp hkeys)
    refine ⟨_, item, by rw [hitem]; rfl, hitem, hle, fun k' hk' hle' => ?_⟩
    exact Finset.le_max' _ _ (Finset.mem_filter.mpr ⟨Finmap.mem_keys.mpr hk', hle'⟩)
  · refine .inl ⟨rfl, fun k hk => lt_of_not_ge fun hle => hne ⟨k, ?_⟩⟩
    exact Finset.mem_filter.mpr ⟨Finmap.mem_keys.mpr hk, hle⟩

theorem Valid.get_cases (h : m.Valid) (x : K) :
    (∃ k item, m.map.lookup k = some item ∧ k ≤ x ∧ x < item.endExcluded ∧ m.get x = item.v) ∨
      (m.get x = none ∧ ∀ k item, m.map.lookup k = some item → x < k ∨ item.endExcluded ≤ x) := by
  unfold get
  rcases m.lowerBound_cases x with ⟨hlower, hall⟩ | ⟨k, item, hlower, hitem, hle, hmax⟩
  · rw [hlower]
    exact .inr ⟨rfl, fun k item hitem => .inl (hall k (Finmap.mem_iff.mpr ⟨item, hitem⟩))⟩
  · rw [hlower]
    by_cases hx : x < item.endExcluded
    · exact .inl ⟨k, item, hitem, hle, hx, if_pos hx⟩
    · refine .inr ⟨if_neg hx, fun k' item' hitem' => ?_⟩
      rcases lt_or_ge x k' with hlt | hle'
      · exact .inl hlt
      · refine .inr ?_
        rcases (hmax k' (Finmap.mem_iff.mpr ⟨item', hitem'⟩) hle').lt_or_eq with hlt | rfl
        · exact (h.disjoint k' item' k item hitem' hitem hlt).trans hle
        · rw [hitem] at hitem'
          cases hitem'
          exact not_lt.mp hx

theorem Valid.get_of_item (h : m.Valid) (hitem : m.map.lookup k = some item) (hle : k ≤ x)
    (hlt : x < item.endExcluded) : m.get x = item.v := by
  rcases h.get_cases x with ⟨k', item', hitem', hle', hlt', hget⟩ | ⟨-, hall⟩
  · rcases lt_trichotomy k k' with hkk | rfl | hkk
    · exact absurd (hlt.trans_le (h.disjoint k item k' item' hitem hitem' hkk)) (not_lt.mpr hle')
    · rw [hitem] at hitem'
      cases hitem'
      exact hget
    · exact absurd (hlt'.trans_le (h.disjoint k' item' k item hitem' hitem hkk)) (not_lt.mpr hle)
  · rcases hall k item hitem with hxk | hxe
    · exact absurd hle (not_le.mpr hxk)
    · exact absurd hlt (not_lt.mpr hxe)

theorem Valid.get_eq_none (h : m.Valid)
    (hall : ∀ k item, m.map.lookup k = some item → x < k ∨ item.endExcluded ≤ x) :
    m.get x = none := by
  rcases h.get_cases x with ⟨k, item, hitem, hle, hlt, -⟩ | ⟨hget, -⟩
  · rcases hall k item hitem with hxk | hxe
    · exact absurd hle (not_le.mpr hxk)
    · exact absurd hlt (not_lt.mpr hxe)
  · exact hget

/-! ## Changing one item -/

def Free (m : RangeMap K V) (a c : K) : Prop :=
  ∀ k item, m.map.lookup k = some item → item.endExcluded ≤ a ∨ c ≤ k

theorem lookup_insert_self : (m.insert a item).map.lookup a = some item := Finmap.lookup_insert _

theorem lookup_insert_ne (h : k ≠ a) : (m.insert a item).map.lookup k = m.map.lookup k :=
  Finmap.lookup_insert_of_ne _ h

theorem lookup_remove_self : (m.remove a).map.lookup a = none := Finmap.lookup_erase _ _

theorem lookup_remove_ne (h : k ≠ a) : (m.remove a).map.lookup k = m.map.lookup k :=
  Finmap.lookup_erase_ne h

theorem lookup_insert_cases {item' : RangeItem K V}
    (h : (m.insert a item).map.lookup k = some item') :
    (k = a ∧ item' = item) ∨ (k ≠ a ∧ m.map.lookup k = some item') := by
  by_cases hk : k = a
  · subst hk
    exact .inl ⟨rfl, Option.some.inj (h.symm.trans lookup_insert_self)⟩
  · exact .inr ⟨hk, (lookup_insert_ne hk).symm.trans h⟩

theorem lookup_remove_cases (h : (m.remove a).map.lookup k = some item) :
    k ≠ a ∧ m.map.lookup k = some item := by
  by_cases hk : k = a
  · subst hk
    exact absurd (h.symm.trans lookup_remove_self) nofun
  · exact ⟨hk, (lookup_remove_ne hk).symm.trans h⟩

theorem Valid.remove (h : m.Valid) (a : K) : (m.remove a).Valid where
  start k item hk := h.start k item (lookup_remove_cases hk).2
  value k item hk := h.value k item (lookup_remove_cases hk).2
  nonempty k item hk := h.nonempty k item (lookup_remove_cases hk).2
  disjoint k item k' item' hk hk' :=
    h.disjoint k item k' item' (lookup_remove_cases hk).2 (lookup_remove_cases hk').2

theorem Valid.free_remove (h : m.Valid) (hitem : m.map.lookup a = some item) :
    (m.remove a).Free a item.endExcluded := by
  intro k item' hk
  obtain ⟨hne, hk⟩ := lookup_remove_cases hk
  rcases hne.lt_or_gt with hlt | hgt
  · exact .inl (h.disjoint k item' a item hk hitem hlt)
  · exact .inr (h.disjoint a item k item' hitem hk hgt)

theorem Valid.insert (h : m.Valid) (hfree : m.Free a c) (hac : a < c) (w : V) :
    (m.insert a ⟨a, c, some w⟩).Valid where
  start := by
    intro k item hk
    rcases lookup_insert_cases hk with ⟨rfl, rfl⟩ | ⟨-, hk⟩
    · rfl
    · exact h.start k item hk
  value := by
    intro k item hk
    rcases lookup_insert_cases hk with ⟨-, rfl⟩ | ⟨-, hk⟩
    · rfl
    · exact h.value k item hk
  nonempty := by
    intro k item hk
    rcases lookup_insert_cases hk with ⟨rfl, rfl⟩ | ⟨-, hk⟩
    · exact hac
    · exact h.nonempty k item hk
  disjoint := by
    intro k item k' item' hk hk' hlt
    rcases lookup_insert_cases hk with ⟨rfl, rfl⟩ | ⟨-, hold⟩
    · rcases lookup_insert_cases hk' with ⟨rfl, -⟩ | ⟨-, hk'⟩
      · exact absurd hlt (lt_irrefl _)
      · refine (hfree k' item' hk').resolve_left fun hend => ?_
        exact absurd (hlt.trans (h.nonempty k' item' hk')) (not_lt.mpr hend)
    · rcases lookup_insert_cases hk' with ⟨rfl, -⟩ | ⟨-, hk'⟩
      · refine (hfree k item hold).resolve_right fun hle => ?_
        exact absurd (hac.trans_le hle) (not_lt.mpr hlt.le)
      · exact h.disjoint k item k' item' hold hk' hlt

theorem Valid.get_remove (h : m.Valid) (hitem : m.map.lookup a = some item) (x : K) :
    (m.remove a).get x = if a ≤ x ∧ x < item.endExcluded then none else m.get x := by
  have hr := h.remove a
  split_ifs with hx
  · refine hr.get_eq_none fun k item' hk => ?_
    rcases h.free_remove hitem k item' hk with hend | hstart
    · exact .inr (hend.trans hx.1)
    · exact .inl (hx.2.trans_le hstart)
  · rcases hr.get_cases x with ⟨k, item', hk, hle, hlt, hget⟩ | ⟨hget, hall⟩
    · rw [hget, h.get_of_item (lookup_remove_cases hk).2 hle hlt]
    · rw [hget]
      refine (h.get_eq_none fun k item' hk => ?_).symm
      by_cases hka : k = a
      · subst hka
        rw [hitem] at hk
        cases hk
        rcases not_and_or.mp hx with hx | hx
        · exact .inl (not_le.mp hx)
        · exact .inr (not_lt.mp hx)
      · exact hall k item' ((lookup_remove_ne hka).trans hk)

theorem Valid.get_insert (h : m.Valid) (hfree : m.Free a c) (hac : a < c) (w : V) (x : K) :
    (m.insert a ⟨a, c, some w⟩).get x = if a ≤ x ∧ x < c then some w else m.get x := by
  have hi := h.insert hfree hac w
  split_ifs with hx
  · exact hi.get_of_item lookup_insert_self hx.1 hx.2
  · have hother : ∀ k item, m.map.lookup k = some item →
        (m.insert a ⟨a, c, some w⟩).map.lookup k = some item := by
      intro k item hk
      refine (lookup_insert_ne ?_).trans hk
      rintro rfl
      rcases hfree k item hk with hend | hstart
      · exact absurd (h.nonempty k item hk) (not_lt.mpr hend)
      · exact absurd hac (not_lt.mpr hstart)
    rcases h.get_cases x with ⟨k, item, hk, hle, hlt, hget⟩ | ⟨hget, hall⟩
    · rw [hget, hi.get_of_item (hother k item hk) hle hlt]
    · rw [hget]
      refine hi.get_eq_none fun k item hk => ?_
      rcases lookup_insert_cases hk with ⟨rfl, rfl⟩ | ⟨-, hk⟩
      · rcases not_and_or.mp hx with hx | hx
        · exact .inl (not_le.mp hx)
        · exact .inr (not_lt.mp hx)
      · exact hall k item hk

theorem ext_lookup (h : ∀ k, m.map.lookup k = m'.map.lookup k) : m = m' := by
  obtain ⟨map⟩ := m
  exact congrArg _ (Finmap.ext_lookup h)

theorem Valid.split (h : m.Valid) (hitem : m.map.lookup k = some item) (hka : k < a)
    (hae : a < item.endExcluded) :
    let cut := (m.insert k { item with endExcluded := a }).insert a { item with startIncluded := a }
    cut.Valid ∧ cut.get = m.get := by
  obtain ⟨w, hw⟩ := Option.isSome_iff_exists.mp (h.value k item hitem)
  obtain ⟨start, stop, value⟩ := item
  obtain rfl : start = k := h.start _ _ hitem
  subst hw
  have hfree := h.free_remove hitem
  have hleft : (m.remove start).Free start a := fun k item hk =>
    (hfree k item hk).imp_right hae.le.trans
  have hvalid := (h.remove start).insert hleft hka w
  have hright : ((m.remove start).insert start ⟨start, a, some w⟩).Free a stop := by
    intro k item hk
    rcases lookup_insert_cases hk with ⟨-, rfl⟩ | ⟨-, hk⟩
    · exact .inl le_rfl
    · exact (hfree k item hk).imp_left hka.le.trans'
  have heq : (m.insert start ⟨start, a, some w⟩).insert a ⟨a, stop, some w⟩ =
      ((m.remove start).insert start ⟨start, a, some w⟩).insert a ⟨a, stop, some w⟩ := by
    refine congrArg (fun m : RangeMap K V => m.insert a ⟨a, stop, some w⟩) (ext_lookup fun k => ?_)
    by_cases hk : k = start
    · subst hk
      rw [lookup_insert_self, lookup_insert_self]
    · rw [lookup_insert_ne hk, lookup_insert_ne hk, lookup_remove_ne hk]
  rw [heq]
  refine ⟨hvalid.insert hright hae w, funext fun x => ?_⟩
  rw [hvalid.get_insert hright hae, (h.remove start).get_insert hleft hka, h.get_remove hitem]
  by_cases hx : start ≤ x ∧ x < stop
  · rw [h.get_of_item hitem hx.1 hx.2]
    by_cases hxa : a ≤ x
    · rw [if_pos ⟨hxa, hx.2⟩]
    · rw [if_neg fun hx => hxa hx.1, if_pos ⟨hx.1, not_le.mp hxa⟩]
  · rw [if_neg fun hx' => hx ⟨hka.le.trans hx'.1, hx'.2⟩,
      if_neg fun hx' => hx ⟨hx'.1, hx'.2.trans hae⟩, if_neg hx]

/-! ## A piece of the range -/

/-- No item starts before `a` and ends behind it. -/
def Aligned (m : RangeMap K V) (a : K) : Prop :=
  ∀ k item, m.map.lookup k = some item → item.endExcluded ≤ a ∨ a ≤ k

/-- The keys from `a` to before `c` are one item, or a gap between items. -/
structure Slot (m : RangeMap K V) (a c : K) (v : Option V) : Prop where
  valid : m.Valid
  lt : a < c
  item : m.map.lookup a = some ⟨a, c, v⟩ ∨ (m.map.lookup a = none ∧ v = none ∧ m.Free a c)

def put (m : RangeMap K V) (a c : K) : Option V → RangeMap K V
  | some w => (m.remove a).insert a ⟨a, c, some w⟩
  | none => m.remove a

theorem lookup_put_ne (h : k ≠ a) : (m.put a c v).map.lookup k = m.map.lookup k := by
  cases v with
  | none => exact lookup_remove_ne h
  | some w => exact (lookup_insert_ne h).trans (lookup_remove_ne h)

theorem remove_eq_self (h : m.map.lookup a = none) : m.remove a = m := by
  refine ext_lookup fun k => ?_
  by_cases hk : k = a
  · subst hk
    rw [lookup_remove_self, h]
  · exact lookup_remove_ne hk

theorem remove_insert : (m.insert a item).remove a = m.remove a := by
  refine ext_lookup fun k => ?_
  by_cases hk : k = a
  · subst hk
    rw [lookup_remove_self, lookup_remove_self]
  · rw [lookup_remove_ne hk, lookup_remove_ne hk, lookup_insert_ne hk]

theorem put_insert : (m.insert a item).put a c v = m.put a c v := by
  cases v with
  | none => exact remove_insert
  | some w => exact congrArg (fun m : RangeMap K V => m.insert a ⟨a, c, some w⟩) remove_insert

theorem insert_eq_put (w : V) : m.insert a ⟨a, c, some w⟩ = m.put a c (some w) := by
  refine ext_lookup fun k => ?_
  by_cases hk : k = a
  · subst hk
    exact lookup_insert_self.trans lookup_insert_self.symm
  · rw [lookup_insert_ne hk, lookup_put_ne hk]

namespace Slot

section

variable (h : m.Slot a c v)

include h

theorem free : (m.remove a).Free a c := by
  rcases h.item with hitem | ⟨hnone, -, hfree⟩
  · exact h.valid.free_remove hitem
  · rw [remove_eq_self hnone]
    exact hfree

theorem get_eq (hle : a ≤ x) (hlt : x < c) : m.get x = v := by
  rcases h.item with hitem | ⟨-, rfl, hfree⟩
  · exact h.valid.get_of_item hitem hle hlt
  · refine h.valid.get_eq_none fun k item hk => ?_
    exact (hfree k item hk).symm.imp hlt.trans_le hle.trans'

theorem get_remove (x : K) :
    (m.remove a).get x = if a ≤ x ∧ x < c then none else m.get x := by
  rcases h.item with hitem | ⟨hnone, rfl, -⟩
  · exact h.valid.get_remove hitem x
  · rw [remove_eq_self hnone]
    split_ifs with hx
    · exact h.get_eq hx.1 hx.2
    · rfl

theorem valid_put (v' : Option V) : (m.put a c v').Valid := by
  cases v' with
  | none => exact h.valid.remove a
  | some w => exact (h.valid.remove a).insert h.free h.lt w

theorem get_put (v' : Option V) (x : K) :
    (m.put a c v').get x = if a ≤ x ∧ x < c then v' else m.get x := by
  cases v' with
  | none => exact h.get_remove x
  | some w =>
    refine ((h.valid.remove a).get_insert h.free h.lt w x).trans ?_
    rw [h.get_remove]
    split_ifs <;> rfl

theorem aligned_put (v' : Option V) : (m.put a c v').Aligned c := by
  have hother : ∀ k item, (m.remove a).map.lookup k = some item → item.endExcluded ≤ c ∨ c ≤ k :=
    fun k item hk => (h.free k item hk).imp_left h.lt.le.trans'
  cases v' with
  | none => exact hother
  | some w =>
    intro k item hk
    rcases lookup_insert_cases hk with ⟨-, rfl⟩ | ⟨-, hk⟩
    · exact .inl le_rfl
    · exact hother k item hk

end

end Slot

/-! ## One pass of the loop -/

def rest (m : RangeMap K V) (a : K) : Nat := (m.map.keys.filter (a ≤ ·)).card

theorem rest_congr (h : ∀ k, a ≤ k → m.map.lookup k = m'.map.lookup k) : m.rest a = m'.rest a := by
  unfold rest
  congr 1
  ext k
  rw [Finset.mem_filter, Finset.mem_filter, Finmap.mem_keys, Finmap.mem_keys]
  refine and_congr_left fun hk => ?_
  rw [Finmap.mem_iff, Finmap.mem_iff, h k hk]

theorem rest_le_card : m.rest a ≤ m.map.keys.card := Finset.card_filter_le _ _

theorem rest_le (h : a ≤ c) : m.rest c ≤ m.rest a :=
  Finset.card_le_card fun _ hk =>
    Finset.mem_filter.mpr ⟨(Finset.mem_filter.mp hk).1, h.trans (Finset.mem_filter.mp hk).2⟩

theorem rest_lt (h : a < c) (hitem : m.map.lookup a = some item) : m.rest c < m.rest a := by
  have ha : a ∈ m.map.keys := Finmap.mem_keys.mpr (Finmap.mem_iff.mpr ⟨item, hitem⟩)
  refine Finset.card_lt_card ((Finset.ssubset_iff_of_subset fun k hk => ?_).mpr ⟨a, ?_, ?_⟩)
  · obtain ⟨hkeys, hle⟩ := Finset.mem_filter.mp hk
    exact Finset.mem_filter.mpr ⟨hkeys, h.le.trans hle⟩
  · exact Finset.mem_filter.mpr ⟨ha, le_rfl⟩
  · exact fun hmem => absurd (Finset.mem_filter.mp hmem).2 (not_le.mpr h)

theorem lookup_eq_none_of_lt_lower (hmax : ∀ k' ∈ m.map, k' ≤ a → k' ≤ k) (hlt : k < a) :
    m.map.lookup a = none := by
  refine Finmap.lookup_eq_none.mpr fun hmem => ?_
  exact absurd (hmax a hmem le_rfl) (not_le.mpr hlt)

theorem startingAt_aligned (hal : m.Aligned a) : m.startingAt a = some (m, m.map.lookup a) := by
  unfold startingAt
  rcases m.lowerBound_cases a with ⟨hlower, hall⟩ | ⟨k, item, hlower, hitem, hle, hmax⟩
  · rw [hlower]
    have hnone : m.map.lookup a = none :=
      Finmap.lookup_eq_none.mpr fun hmem => absurd (hall a hmem) (lt_irrefl a)
    rw [hnone]
  · rw [hlower]
    dsimp only
    by_cases hk : k = a
    · subst hk
      rw [if_pos rfl, hitem]
    · have hlt : k < a := lt_of_le_of_ne hle hk
      have hend := (hal k item hitem).resolve_right (not_le.mpr hlt)
      rw [if_neg hk, if_neg (not_lt.mpr hend), lookup_eq_none_of_lt_lower hmax hlt]

/-- Afterwards no item contains the key but the one that starts there. -/
theorem Valid.startingAt_spec (h : m.Valid) (a : K) :
    ∃ m₀, m.startingAt a = some (m₀, m₀.map.lookup a) ∧ m₀.Valid ∧ m₀.Aligned a ∧
      m₀.get = m.get ∧ m₀.rest a ≤ m.map.keys.card := by
  by_cases hal : m.Aligned a
  · exact ⟨m, startingAt_aligned hal, h, hal, rfl, rest_le_card⟩
  · have hcross : ∃ k item, m.map.lookup k = some item ∧ k < a ∧ a < item.endExcluded := by
      unfold Aligned at hal
      push Not at hal
      obtain ⟨k, item, hitem, hend, hlt⟩ := hal
      exact ⟨k, item, hitem, hlt, hend⟩
    obtain ⟨k, item, hitem, hka, hae⟩ := hcross
    have hka' : a ≠ k := hka.ne'
    -- the item that contains the key is the last one that starts before it
    have hmax : ∀ k' ∈ m.map, k' ≤ a → k' ≤ k := by
      intro k' hk' hle
      obtain ⟨item', hitem'⟩ := Finmap.mem_iff.mp hk'
      refine le_of_not_gt fun hlt => ?_
      exact absurd (hae.trans_le (h.disjoint k item k' item' hitem hitem' hlt)) (not_lt.mpr hle)
    have hlower : m.lowerBound a = some (k, item) := by
      rcases m.lowerBound_cases a with ⟨-, hall⟩ | ⟨k', item', hlower, hitem', hle', hmax'⟩
      · exact absurd (hall k (Finmap.mem_iff.mpr ⟨item, hitem⟩)) (not_lt.mpr hka.le)
      · have hk : k' = k := le_antisymm (hmax k' (Finmap.mem_iff.mpr ⟨item', hitem'⟩) hle')
          (hmax' k (Finmap.mem_iff.mpr ⟨item, hitem⟩) hka.le)
        subst hk
        rw [hitem] at hitem'
        cases hitem'
        exact hlower
    have hvacant : a ∉ (m.insert k { item with endExcluded := a }).map := by
      refine Finmap.lookup_eq_none.mp ((lookup_insert_ne hka').trans ?_)
      exact lookup_eq_none_of_lt_lower hmax hka
    obtain ⟨hvalid, hget⟩ := h.split hitem hka hae
    refine ⟨_, ?_, hvalid, ?_, hget, ?_⟩
    · unfold startingAt insertVacant
      rw [hlower]
      dsimp only
      rw [if_neg hka.ne, if_pos hae, if_neg hvacant, lookup_insert_self]
      rfl
    · intro k' item' hk'
      rcases lookup_insert_cases hk' with ⟨rfl, -⟩ | ⟨-, hk'⟩
      · exact .inr le_rfl
      · rcases lookup_insert_cases hk' with ⟨-, rfl⟩ | ⟨hne, hk'⟩
        · exact .inl le_rfl
        · rcases hne.lt_or_gt with hlt | hgt
          · exact .inl ((h.disjoint k' item' k item hk' hitem hlt).trans hka.le)
          · exact .inr (hae.le.trans (h.disjoint k item k' item' hitem hk' hgt))
    · -- the new item makes up for the cut one, which starts before the key
      have hsub : ∀ k' ∈ ((m.insert k { item with endExcluded := a }).insert a
          { item with startIncluded := a }).map.keys.filter (a ≤ ·),
          k' ∈ Insert.insert a (m.map.keys.erase k) := by
        intro k' hk'
        obtain ⟨hkeys, hle⟩ := Finset.mem_filter.mp hk'
        obtain ⟨item', hitem'⟩ := Finmap.mem_iff.mp (Finmap.mem_keys.mp hkeys)
        have hne : k' ≠ k := (hka.trans_le hle).ne'
        rcases lookup_insert_cases hitem' with ⟨rfl, -⟩ | ⟨-, hold⟩
        · exact Finset.mem_insert_self _ _
        · rw [lookup_insert_ne hne] at hold
          refine Finset.mem_insert_of_mem (Finset.mem_erase.mpr ⟨hne, ?_⟩)
          exact Finmap.mem_keys.mpr (Finmap.mem_iff.mpr ⟨item', hold⟩)
      have hmem : k ∈ m.map.keys := Finmap.mem_keys.mpr (Finmap.mem_iff.mpr ⟨item, hitem⟩)
      calc _ ≤ (Insert.insert a (m.map.keys.erase k)).card := Finset.card_le_card hsub
        _ ≤ (m.map.keys.erase k).card + 1 := Finset.card_insert_le _ _
        _ = m.map.keys.card := Finset.card_erase_add_one hmem

theorem mutateStep_eq {f : S → Range K → Option V → Option (S × Option V)}
    {start : Option (RangeItem K V)} {m₁ : RangeMap K V} {next : Option (Range K)}
    (hstart : m.startingAt a = some (m₀, start))
    (hover : m₀.overlap ⟨a, b⟩ start = some (m₁, ⟨a, c, v⟩, next)) :
    mutateStep f s m ⟨a, b⟩ = (f s ⟨a, c⟩ v).map fun (s, v) => (s, m₁.put a c v, next) := by
  unfold mutateStep
  rw [hstart, Option.bind_eq_bind, Option.bind_some, Option.bind_eq_bind]
  dsimp only
  rw [hover, Option.bind_some, Option.bind_eq_bind]
  cases hf : f s ⟨a, c⟩ v with
  | none => rfl
  | some result =>
    obtain ⟨s', v'⟩ := result
    cases v' with
    | none =>
      have hmem : a ∈ (m₁.insert a ⟨a, c, none⟩).map :=
        Finmap.mem_iff.mpr ⟨_, lookup_insert_self⟩
      simp only [Option.bind_some, Option.isNone_none, if_true, if_pos hmem, remove_insert]
      rfl
    | some w =>
      rw [Option.map_some, ← insert_eq_put]
      rfl

theorem upperBound_cases (hab : a ≤ b) :
    (m.upperBound ⟨a, b⟩ = some none ∧ ∀ k ∈ m.map, a ≤ k → b ≤ k) ∨
      ∃ c, m.upperBound ⟨a, b⟩ = some (some c) ∧ c ∈ m.map ∧ a ≤ c ∧ c < b ∧
        ∀ k ∈ m.map, a ≤ k → c ≤ k := by
  unfold upperBound
  rw [if_neg (not_lt.mpr hab)]
  dsimp only
  split_ifs with hne
  · right
    have hmem := (m.map.keys.filter fun k => a ≤ k ∧ k < b).min'_mem hne
    obtain ⟨hkeys, hle, hlt⟩ := Finset.mem_filter.mp hmem
    refine ⟨_, rfl, Finmap.mem_keys.mp hkeys, hle, hlt, fun k hk hak => ?_⟩
    rcases lt_or_ge k b with hkb | hbk
    · exact Finset.min'_le _ _ (Finset.mem_filter.mpr ⟨Finmap.mem_keys.mpr hk, hak, hkb⟩)
    · exact hlt.le.trans hbk
  · refine .inl ⟨rfl, fun k hk hak => le_of_not_gt fun hkb => hne ⟨k, ?_⟩⟩
    exact Finset.mem_filter.mpr ⟨Finmap.mem_keys.mpr hk, hak, hkb⟩

theorem overlap_gap (hvacant : a ∉ m.map) :
    m.overlap ⟨a, b⟩ none = (m.upperBound ⟨a, b⟩).map fun
      | some c => (m.insert a ⟨a, c, none⟩, ⟨a, c, none⟩, some ⟨c, b⟩)
      | none => (m.insert a ⟨a, b, none⟩, ⟨a, b, none⟩, none) := by
  unfold overlap insertVacant
  rcases m.upperBound ⟨a, b⟩ with _ | _ | c
  · rfl
  · simp only [if_neg hvacant, Option.bind_eq_bind, Option.bind_some, Option.map_some]
  · simp only [if_neg hvacant, Option.bind_eq_bind, Option.bind_some, Option.map_some]

theorem Aligned.free (hal : m.Aligned a) (hall : ∀ k ∈ m.map, a ≤ k → c ≤ k) : m.Free a c :=
  fun k item hk => (hal k item hk).imp_right (hall k (Finmap.mem_iff.mpr ⟨item, hk⟩))

/-- One pass changes a piece at the start of the range. If it is not all of the range, the rest of it
is next, and behind a gap there is an item. -/
theorem Valid.mutateStep_spec (h : m.Valid) (hal : m.Aligned a) (hab : a < b)
    (f : S → Range K → Option V → Option (S × Option V)) (s : S) :
    ∃ c m₀ next, m₀.Slot a c (m.get a) ∧ c ≤ b ∧ m₀.get = m.get ∧
      mutateStep f s m ⟨a, b⟩ =
        (f s ⟨a, c⟩ (m.get a)).map (fun (s, v) => (s, m₀.put a c v, next)) ∧
      ((next = none ∧ c = b) ∨ (next = some ⟨c, b⟩ ∧ c < b ∧ m₀ = m ∧
        (m.map.lookup a = none → c ∈ m.map))) := by
  have hstart := startingAt_aligned hal
  cases hitem : m.map.lookup a with
  | some item =>
    obtain ⟨start, stop, value⟩ := item
    obtain rfl : start = a := h.start _ _ hitem
    have hlt : start < stop := h.nonempty _ _ hitem
    have hget : m.get start = value := h.get_of_item hitem le_rfl hlt
    have hslot : m.Slot start stop value := ⟨h, hlt, .inl hitem⟩
    rw [hitem] at hstart
    rw [hget]
    rcases lt_trichotomy stop b with hsb | rfl | hbs
    · refine ⟨stop, m, _, hslot, hsb.le, rfl, mutateStep_eq hstart ?_, .inr ⟨rfl, hsb, rfl, nofun⟩⟩
      unfold overlap
      dsimp only
      rw [if_neg hsb.ne, if_neg (not_lt.mpr hsb.le)]
    · refine ⟨stop, m, _, hslot, le_rfl, rfl, mutateStep_eq hstart ?_, .inl ⟨rfl, rfl⟩⟩
      unfold overlap
      dsimp only
      rw [if_pos rfl]
    · -- the item goes on behind the range and is cut at its end
      obtain ⟨hvalid, hgetCut⟩ := h.split hitem hab hbs
      have hcut : ((m.insert start ⟨start, b, value⟩).insert b ⟨b, stop, value⟩).map.lookup start =
          some ⟨start, b, value⟩ := (lookup_insert_ne hab.ne).trans lookup_insert_self
      refine ⟨b, _, _, ⟨hvalid, hab, .inl hcut⟩, le_rfl, hgetCut, mutateStep_eq hstart ?_,
        .inl ⟨rfl, rfl⟩⟩
      unfold overlap
      dsimp only
      rw [if_neg hbs.ne', if_pos hbs, hcut]
      rfl
  | none =>
    have hvacant : a ∉ m.map := Finmap.lookup_eq_none.mp hitem
    rw [hitem] at hstart
    have hgap : ∀ c, a < c → m.Free a c → m.Slot a c none ∧ m.get a = none := by
      intro c hac hfree
      have hslot : m.Slot a c none := ⟨h, hac, .inr ⟨hitem, rfl, hfree⟩⟩
      exact ⟨hslot, hslot.get_eq le_rfl hac⟩
    rcases upperBound_cases hab.le with ⟨hupper, hall⟩ | ⟨c, hupper, hmem, hac, hcb, hall⟩
    · obtain ⟨hslot, hget⟩ := hgap b hab (hal.free hall)
      rw [hget]
      refine ⟨b, m, none, hslot, le_rfl, rfl, ?_, .inl ⟨rfl, rfl⟩⟩
      simp only [mutateStep_eq hstart ((overlap_gap hvacant).trans (congrArg _ hupper)), put_insert]
    · have hac : a < c := lt_of_le_of_ne hac fun heq => hvacant (heq ▸ hmem)
      obtain ⟨hslot, hget⟩ := hgap c hac (hal.free hall)
      rw [hget]
      refine ⟨c, m, some ⟨c, b⟩, hslot, hcb.le, rfl, ?_, .inr ⟨rfl, hcb, rfl, fun _ => hmem⟩⟩
      simp only [mutateStep_eq hstart ((overlap_gap hvacant).trans (congrArg _ hupper)), put_insert]

/-! ## The whole range -/

section Run

variable {f : S → Range K → Option V → Option (S × Option V)} {I : K → S → (K → Option V) → Prop}

/-- The loop returns when each piece does, and keeps what each piece keeps. The fuel allows for an item
and a gap for each item that is left. -/
theorem mutateLoop_run
    (hpiece : ∀ x y s g, a ≤ x → x < y → y ≤ b → I x s g → (∀ z, x ≤ z → z < y → g z = g x) →
      ∃ s' v, f s ⟨x, y⟩ (g x) = some (s', v) ∧
        I y s' fun z => if x ≤ z ∧ z < y then v else g z)
    (fuel : Nat) : ∀ (m : RangeMap K V) (x : K) (s : S), m.Valid → m.Aligned x → a ≤ x → x < b →
      I x s m.get → 2 * m.rest x + (if x ∈ m.map then 0 else 1) < fuel →
      ∃ s' m', mutateLoop f fuel s m ⟨x, b⟩ = some (s', m') ∧ m'.Valid ∧ I b s' m'.get := by
  induction fuel with
  | zero => exact fun m x s _ _ _ _ _ hfuel => absurd hfuel (Nat.not_lt_zero _)
  | succ fuel ih =>
    intro m x s h hal hax hxb hI hfuel
    obtain ⟨y, m₀, next, hslot, hyb, hget, hstep, hnext⟩ := h.mutateStep_spec hal hxb f s
    have huniform : ∀ z, x ≤ z → z < y → m.get z = m.get x := fun z hxz hzy => by
      rw [← hget, hslot.get_eq hxz hzy, hget]
    obtain ⟨s', v, hf, hI'⟩ := hpiece x y s m.get hax hslot.lt hyb hI huniform
    have hget' : (m₀.put x y v).get = fun z => if x ≤ z ∧ z < y then v else m.get z := by
      funext z
      rw [hslot.get_put, hget]
    rw [← hget'] at hI'
    rw [mutateLoop, hstep, hf, Option.map_some, Option.bind_eq_bind]
    rcases hnext with ⟨rfl, rfl⟩ | ⟨rfl, hlt, rfl, hitem⟩
    · exact ⟨s', _, rfl, hslot.valid_put v, hI'⟩
    · refine ih _ y s' (hslot.valid_put v) (hslot.aligned_put v) (hax.trans hslot.lt.le) hlt hI' ?_
      have hlookup : ∀ k, y ≤ k → (m₀.put x y v).map.lookup k = m₀.map.lookup k := fun k hk =>
        lookup_put_ne (hslot.lt.trans_le hk).ne'
      rw [rest_congr hlookup]
      by_cases hx : x ∈ m₀.map
      · obtain ⟨item, hxitem⟩ := Finmap.mem_iff.mp hx
        have hrest := rest_lt hslot.lt hxitem
        split_ifs <;> omega
      · have hy : y ∈ (m₀.put x y v).map := by
          rw [Finmap.mem_iff, hlookup y le_rfl]
          exact Finmap.mem_iff.mp (hitem (Finmap.lookup_eq_none.mpr hx))
        have hrest := m₀.rest_le hslot.lt.le
        rw [if_neg hx] at hfuel
        rw [if_pos hy]
        omega

theorem mutateLoop_startingAt {fuel : Nat} (hstart : m.startingAt a = some (m₀, m₀.map.lookup a))
    (hal : m₀.Aligned a) :
    mutateLoop f fuel s m ⟨a, b⟩ = mutateLoop f fuel s m₀ ⟨a, b⟩ := by
  cases fuel with
  | zero => rfl
  | succ fuel =>
    have hstep : mutateStep f s m ⟨a, b⟩ = mutateStep f s m₀ ⟨a, b⟩ := by
      unfold mutateStep
      rw [hstart, startingAt_aligned hal]
    rw [mutateLoop, mutateLoop, hstep]

/-- What holds of the state and the function of the map at the start of the range, and is kept by each
piece of it, holds at the end. -/
theorem Valid.mutateRange_run (h : m.Valid) (hab : a < b) (hI : I a s m.get)
    (hpiece : ∀ x y s g, a ≤ x → x < y → y ≤ b → I x s g → (∀ z, x ≤ z → z < y → g z = g x) →
      ∃ s' v, f s ⟨x, y⟩ (g x) = some (s', v) ∧
        I y s' fun z => if x ≤ z ∧ z < y then v else g z) :
    ∃ s' m', mutateRange f s m ⟨a, b⟩ = some (s', m') ∧ m'.Valid ∧ I b s' m'.get := by
  obtain ⟨m₀, hstart, hvalid, hal, hget, hrest⟩ := h.startingAt_spec a
  unfold mutateRange
  rw [mutateLoop_startingAt hstart hal]
  rw [← hget] at hI
  refine mutateLoop_run hpiece _ m₀ a s hvalid hal le_rfl hab hI ?_
  split_ifs <;> omega

/-- An empty range changes the whole item that contains its key. -/
theorem Valid.mutateRange_empty (h : m.Valid) {P : V → Prop} (hm : ∀ x w, m.get x = some w → P w)
    (hgap : f s ⟨a, a⟩ none = some (s, none))
    (hitem : ∀ c w, P w → ∃ s' v, f s ⟨a, c⟩ (some w) = some (s', v) ∧ ∀ w' ∈ v, P w') :
    ∃ s' m', mutateRange f s m ⟨a, a⟩ = some (s', m') ∧ m'.Valid ∧
      ∀ x w, m'.get x = some w → P w := by
  obtain ⟨m₀, hstart, hvalid, hal, hget, -⟩ := h.startingAt_spec a
  rw [← hget] at hm
  unfold mutateRange
  rw [mutateLoop_startingAt hstart hal, mutateLoop]
  have hstart := startingAt_aligned hal
  cases hlookup : m₀.map.lookup a with
  | some item =>
    obtain ⟨start, stop, value⟩ := item
    obtain rfl : start = a := hvalid.start _ _ hlookup
    have hlt : start < stop := hvalid.nonempty _ _ hlookup
    obtain ⟨w, rfl⟩ := Option.isSome_iff_exists.mp (hvalid.value _ _ hlookup)
    have hslot : m₀.Slot start stop (some w) := ⟨hvalid, hlt, .inl hlookup⟩
    obtain ⟨s', v, hf, hv⟩ := hitem stop w (hm start w (hslot.get_eq le_rfl hlt))
    rw [hlookup] at hstart
    have hover : m₀.overlap ⟨start, start⟩ (some ⟨start, stop, some w⟩) =
        some ((m₀.insert start ⟨start, start, some w⟩).insert start ⟨start, stop, some w⟩,
          ⟨start, stop, some w⟩, none) := by
      unfold overlap
      dsimp only
      rw [if_neg hlt.ne', if_pos hlt, lookup_insert_self]
      rfl
    rw [mutateStep_eq hstart hover, hf]
    refine ⟨s', m₀.put start stop v, ?_, hslot.valid_put v, fun x w' hx => ?_⟩
    · simp only [Option.map_some, Option.bind_eq_bind, Option.bind_some, put_insert]
    · rw [hslot.get_put] at hx
      split_ifs at hx
      · exact hv w' hx
      · exact hm x w' hx
  | none =>
    rw [hlookup] at hstart
    have hupper : m₀.upperBound ⟨a, a⟩ = some none := by
      rcases m₀.upperBound_cases (le_refl a) with ⟨hupper, -⟩ | ⟨c, -, -, hac, hca, -⟩
      · exact hupper
      · exact absurd hca (not_lt.mpr hac)
    have hover := (overlap_gap (Finmap.lookup_eq_none.mp hlookup)).trans (congrArg _ hupper)
    rw [mutateStep_eq hstart hover, hgap]
    refine ⟨s, m₀, ?_, hvalid, hm⟩
    simp only [Option.map_some, Option.bind_eq_bind, Option.bind_some, put_insert]
    exact congrArg (fun m => some (s, m)) (remove_eq_self hlookup)

theorem Valid.mutateRange_values (h : m.Valid) (hab : a < b) {P : V → Prop}
    (hm : ∀ x w, m.get x = some w → P w)
    (hpiece : ∀ s range v, (∀ w ∈ v, P w) → ∃ s' v', f s range v = some (s', v') ∧ ∀ w ∈ v', P w) :
    ∃ s' m', mutateRange f s m ⟨a, b⟩ = some (s', m') ∧ m'.Valid ∧
      ∀ x w, m'.get x = some w → P w := by
  refine h.mutateRange_run (I := fun _ _ g => ∀ x w, g x = some w → P w) hab hm ?_
  intro x y s g _ _ _ hg _
  obtain ⟨s', v, hf, hv⟩ := hpiece s ⟨x, y⟩ (g x) (hg x)
  refine ⟨s', v, hf, fun z w hz => ?_⟩
  dsimp only at hz
  split_ifs at hz
  · exact hv w hz
  · exact hg z w hz

end Run

end RangeMap

end CongestionControl.Mysticeti
