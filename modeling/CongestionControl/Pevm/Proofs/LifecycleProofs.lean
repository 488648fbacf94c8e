import CongestionControl.Pevm.Lifecycle

/-!
# Proofs: the moves of an incarnation

One lemma for each way a status, a list of dependents or a role changes; a scheduler call is a
composition of them.
-/

namespace CongestionControl.Pevm

open Function (update update_of_ne update_self)

variable {ω : Type} {status : TxIdx → TxStatus} {dependents : TxIdx → List TxIdx}
  {role : ω → Role} {i b : TxIdx} {rest : List TxIdx} {status' : TxIdx → TxStatus} {v : TxVersion}
  {x : TxStatus} {issued : List TxVersion}

/-! ## Statuses and lists of dependents -/

theorem LifeInv.unheld (h : LifeInv status dependents role) (he : (status i).status ≠ .executing)
    (ha : (status i).status ≠ .aborting) :
    Unheld dependents role i where
  exec := by
    rintro w v hw rfl
    exact he (by rw [h.exec_status hw])
  abort := fun hw => ha (h.abort_status hw)
  dep := fun hb => ha (h.dep_status hb)

theorem LifeInv.setStatus (h : LifeInv status dependents role) (hu : Unheld dependents role i)
    (x : TxStatus) :
    LifeInv (update status i x) dependents role where
  exec_status := by
    intro w v hw
    rw [update_of_ne (hu.exec hw), h.exec_status hw]
  exec_unique := h.exec_unique
  abort_status := by
    intro w j hw
    have hne : j ≠ i := by rintro rfl; exact hu.abort hw
    rw [update_of_ne hne]
    exact h.abort_status hw
  abort_unique := h.abort_unique
  dep_status := by
    intro b j hb
    have hne : j ≠ i := by rintro rfl; exact hu.dep hb
    rw [update_of_ne hne]
    exact h.dep_status hb
  dep_nodup := h.dep_nodup
  dep_unique := h.dep_unique
  dep_free := h.dep_free

theorem mem_update_append {b' j : TxIdx} (h : j ∈ update dependents b (dependents b ++ [i]) b') :
    j ∈ dependents b' ∨ (b' = b ∧ j = i) := by
  by_cases hb : b' = b
  · subst hb
    rw [update_self, List.mem_append, List.mem_singleton] at h
    exact h.imp id fun h => ⟨rfl, h⟩
  · rw [update_of_ne hb] at h
    exact .inl h

section

variable (h : LifeInv status dependents role)

include h

theorem LifeInv.addDep (hu : Unheld dependents role i) (hs : (status i).status = .aborting)
    (b : TxIdx) :
    LifeInv status (update dependents b (dependents b ++ [i])) role where
  exec_status := h.exec_status
  exec_unique := h.exec_unique
  abort_status := h.abort_status
  abort_unique := h.abort_unique
  dep_status := by
    intro b' j hj
    rcases mem_update_append hj with h1 | ⟨-, rfl⟩
    · exact h.dep_status h1
    · exact hs
  dep_nodup := by
    intro b'
    by_cases hb : b' = b
    · subst hb
      rw [update_self]
      refine List.nodup_append.mpr ⟨h.dep_nodup b', List.nodup_singleton i, ?_⟩
      rintro x hx y hy rfl
      rw [List.mem_singleton] at hy
      exact hu.dep (hy ▸ hx)
    · rw [update_of_ne hb]
      exact h.dep_nodup b'
  dep_unique := by
    intro b1 b2 j h1 h2
    rcases mem_update_append h1 with h1 | ⟨hb1, rfl⟩ <;>
      rcases mem_update_append h2 with h2 | ⟨hb2, hj⟩
    · exact h.dep_unique h1 h2
    · exact absurd (hj ▸ h1) hu.dep
    · exact absurd h2 hu.dep
    · rw [hb1, hb2]
  dep_free := by
    intro b' j w hj hw
    rcases mem_update_append hj with h1 | ⟨-, rfl⟩
    · exact h.dep_free h1 hw
    · exact hu.abort hw

theorem LifeInv.shrinkDep (hsub : rest.Sublist (dependents b)) :
    LifeInv status (update dependents b rest) role := by
  have hmem : ∀ {b' j}, j ∈ update dependents b rest b' → j ∈ dependents b' := by
    intro b' j hj
    by_cases hb : b' = b
    · subst hb; rw [update_self] at hj; exact hsub.subset hj
    · rwa [update_of_ne hb] at hj
  exact
    { exec_status := h.exec_status
      exec_unique := h.exec_unique
      abort_status := h.abort_status
      abort_unique := h.abort_unique
      dep_status := fun hj => h.dep_status (hmem hj)
      dep_nodup := by
        intro b'
        by_cases hb : b' = b
        · subst hb; rw [update_self]; exact (h.dep_nodup b').sublist hsub
        · rw [update_of_ne hb]; exact h.dep_nodup b'
      dep_unique := fun h1 h2 => h.dep_unique (hmem h1) (hmem h2)
      dep_free := fun hj => h.dep_free (hmem hj) }

theorem LifeInv.unheld_removeDep (hb : dependents b = i :: rest) :
    Unheld (update dependents b rest) role i := by
  have hi : i ∈ dependents b := by rw [hb]; exact List.mem_cons_self
  refine ⟨?_, fun hw => h.dep_free hi hw, ?_⟩
  · rintro w v hw rfl
    have := h.dep_status hi
    rw [h.exec_status hw] at this
    cases this
  · intro b' hj
    by_cases hb' : b' = b
    · subst hb'
      have hnd := h.dep_nodup b'
      rw [hb] at hnd
      rw [update_self] at hj
      exact (List.nodup_cons.mp hnd).1 hj
    · rw [update_of_ne hb'] at hj
      exact hb' (h.dep_unique hj hi)

theorem LifeInv.drain (b : TxIdx) :
    LifeInv (resumed status (dependents b)) (update dependents b []) role where
  exec_status := by
    intro w v hw
    have hn : v.txIdx ∉ dependents b := by
      intro hm
      have := h.dep_status hm
      rw [h.exec_status hw] at this
      cases this
    rw [resumed, if_neg hn, h.exec_status hw]
  exec_unique := h.exec_unique
  abort_status := by
    intro w i hw
    rw [resumed, if_neg fun hm => h.dep_free hm hw]
    exact h.abort_status hw
  abort_unique := h.abort_unique
  dep_status := by
    intro b' i hi
    by_cases hb : b' = b
    · subst hb; simp at hi
    · rw [update_of_ne hb] at hi
      rw [resumed, if_neg fun hm => hb (h.dep_unique hi hm)]
      exact h.dep_status hi
  dep_nodup := fun b' => (h.shrinkDep (List.nil_sublist (dependents b))).dep_nodup b'
  dep_unique := (h.shrinkDep (List.nil_sublist (dependents b))).dep_unique
  dep_free := (h.shrinkDep (List.nil_sublist (dependents b))).dep_free

end

theorem OwnedAt.congr {dependents' : TxIdx → List TxIdx} {role' : ω → Role}
    (h : OwnedAt status dependents role i) (hs : status' i = status i)
    (hd : ∀ b, i ∈ dependents b → ∃ b', i ∈ dependents' b')
    (he : ∀ w k, role w = .executing ⟨i, k⟩ → ∃ w', role' w' = .executing ⟨i, k⟩)
    (ha : ∀ w, role w = .aborting i → ∃ w', role' w' = .aborting i) :
    OwnedAt status' dependents' role' i where
  executing := by
    intro hx
    rw [hs] at hx ⊢
    obtain ⟨w, hw⟩ := h.executing hx
    exact he w _ hw
  aborting := by
    intro hx
    rw [hs] at hx
    rcases h.aborting hx with ⟨b, hb⟩ | ⟨w, hw⟩
    · exact .inl (hd b hb)
    · exact .inr (ha w hw)

theorem OwnedAt.of_status (he : (status i).status ≠ .executing)
    (ha : (status i).status ≠ .aborting) : OwnedAt status dependents role i :=
  ⟨fun h => absurd h he, fun h => absurd h ha⟩

/-! ## Roles -/

section Roles

variable [DecidableEq ω] {w : ω} {r : Role}

theorem update_role_cases {w' : ω} {r' : Role} (h : update role w r w' = r') :
    (w' = w ∧ r = r') ∨ (w' ≠ w ∧ role w' = r') := by
  by_cases hw : w' = w
  · subst hw; exact .inl ⟨rfl, by simpa using h⟩
  · exact .inr ⟨hw, by rwa [update_of_ne hw] at h⟩

theorem role_of_update_free {w' : ω} (hr : r ≠ .free) (h : update role w .free w' = r) :
    w' ≠ w ∧ role w' = r := by
  rcases update_role_cases h with ⟨-, h1⟩ | h1
  · exact absurd h1.symm hr
  · exact h1

section

variable (h : LifeInv status dependents role)

include h

theorem LifeInv.drop (w : ω) :
    LifeInv status dependents (update role w .free) where
  exec_status := fun hw => h.exec_status (role_of_update_free (by simp) hw).2
  exec_unique := fun hw hw' =>
    h.exec_unique (role_of_update_free (by simp) hw).2 (role_of_update_free (by simp) hw').2
  abort_status := fun hw => h.abort_status (role_of_update_free (by simp) hw).2
  abort_unique := fun hw hw' =>
    h.abort_unique (role_of_update_free (by simp) hw).2 (role_of_update_free (by simp) hw').2
  dep_status := h.dep_status
  dep_nodup := h.dep_nodup
  dep_unique := h.dep_unique
  dep_free := fun hb hw => h.dep_free hb (role_of_update_free (by simp) hw).2

theorem LifeInv.unheld_drop_exec (hw : role w = .executing v) :
    Unheld dependents (update role w .free) v.txIdx where
  exec := by
    intro w' v' hw' he
    obtain ⟨hne, hw'⟩ := role_of_update_free (by simp) hw'
    exact hne (h.exec_unique hw' hw he)
  abort := by
    intro w' hw'
    have := h.abort_status (role_of_update_free (by simp) hw').2
    rw [h.exec_status hw] at this
    cases this
  dep := by
    intro b hb
    have := h.dep_status hb
    rw [h.exec_status hw] at this
    cases this

theorem LifeInv.unheld_drop_abort (hw : role w = .aborting i) :
    Unheld dependents (update role w .free) i where
  exec := by
    rintro w' v' hw' rfl
    have := h.abort_status hw
    rw [h.exec_status (role_of_update_free (by simp) hw').2] at this
    cases this
  abort := by
    intro w' hw'
    obtain ⟨hne, hw'⟩ := role_of_update_free (by simp) hw'
    exact hne (h.abort_unique hw' hw)
  dep := fun hb => h.dep_free hb hw

theorem LifeInv.takeExec (hu : Unheld dependents role v.txIdx)
    (hs : status v.txIdx = ⟨v.txIncarnation, .executing⟩) (w : ω) :
    LifeInv status dependents (update role w (.executing v)) where
  exec_status := by
    intro w' v' hw'
    rcases update_role_cases hw' with ⟨-, h1⟩ | ⟨-, h1⟩
    · cases h1; exact hs
    · exact h.exec_status h1
  exec_unique := by
    intro w1 w2 v1 v2 h1 h2 he
    rcases update_role_cases h1 with ⟨hw1, h1⟩ | ⟨-, h1⟩ <;>
      rcases update_role_cases h2 with ⟨hw2, h2⟩ | ⟨-, h2⟩
    · rw [hw1, hw2]
    · cases h1; exact absurd he.symm (hu.exec h2)
    · cases h2; exact absurd he (hu.exec h1)
    · exact h.exec_unique h1 h2 he
  abort_status := by
    intro w' i hw'
    rcases update_role_cases hw' with ⟨-, h1⟩ | ⟨-, h1⟩
    · cases h1
    · exact h.abort_status h1
  abort_unique := by
    intro w1 w2 i h1 h2
    rcases update_role_cases h1 with ⟨-, h1⟩ | ⟨-, h1⟩ <;>
      rcases update_role_cases h2 with ⟨-, h2⟩ | ⟨-, h2⟩
    · cases h1
    · cases h1
    · cases h2
    · exact h.abort_unique h1 h2
  dep_status := h.dep_status
  dep_nodup := h.dep_nodup
  dep_unique := h.dep_unique
  dep_free := by
    intro b i w' hb hw'
    rcases update_role_cases hw' with ⟨-, h1⟩ | ⟨-, h1⟩
    · cases h1
    · exact h.dep_free hb h1

theorem LifeInv.takeAbort (hu : Unheld dependents role i) (hs : (status i).status = .aborting)
    (w : ω) :
    LifeInv status dependents (update role w (.aborting i)) where
  exec_status := by
    intro w' v' hw'
    rcases update_role_cases hw' with ⟨-, h1⟩ | ⟨-, h1⟩
    · cases h1
    · exact h.exec_status h1
  exec_unique := by
    intro w1 w2 v1 v2 h1 h2 he
    rcases update_role_cases h1 with ⟨-, h1⟩ | ⟨-, h1⟩ <;>
      rcases update_role_cases h2 with ⟨-, h2⟩ | ⟨-, h2⟩
    · cases h1
    · cases h1
    · cases h2
    · exact h.exec_unique h1 h2 he
  abort_status := by
    intro w' j hw'
    rcases update_role_cases hw' with ⟨-, h1⟩ | ⟨-, h1⟩
    · cases h1; exact hs
    · exact h.abort_status h1
  abort_unique := by
    intro w1 w2 j h1 h2
    rcases update_role_cases h1 with ⟨hw1, h1⟩ | ⟨-, h1⟩ <;>
      rcases update_role_cases h2 with ⟨hw2, h2⟩ | ⟨-, h2⟩
    · rw [hw1, hw2]
    · cases h1; exact absurd h2 hu.abort
    · cases h2; exact absurd h1 hu.abort
    · exact h.abort_unique h1 h2
  dep_status := h.dep_status
  dep_nodup := h.dep_nodup
  dep_unique := h.dep_unique
  dep_free := by
    intro b j w' hb hw'
    rcases update_role_cases hw' with ⟨-, h1⟩ | ⟨-, h1⟩
    · cases h1; exact hu.dep hb
    · exact h.dep_free hb h1

end

/-- A change of the role of `w` that only concerns `i`, and of the status of `i`, leaves the
ownership of the other transactions. -/
theorem OwnedAt.frame {j : TxIdx} (h : OwnedAt status dependents role j) (hj : j ≠ i)
    (hr : role w = .free ∨ (∃ k, role w = .executing ⟨i, k⟩) ∨ role w = .aborting i) :
    OwnedAt (update status i x) dependents (update role w r) j := by
  have hother : ∀ {w' r'}, role w' = r' → r' ≠ .free → (∀ k, r' ≠ .executing ⟨i, k⟩) →
      r' ≠ .aborting i → update role w r w' = r' := by
    intro w' r' hw' h1 h2 h3
    have hne : w' ≠ w := by
      rintro rfl
      rcases hr with hr | ⟨k, hr⟩ | hr
      · exact h1 (hw'.symm.trans hr)
      · exact h2 k (hw'.symm.trans hr)
      · exact h3 (hw'.symm.trans hr)
    rw [update_of_ne hne, hw']
  refine h.congr (update_of_ne hj _ _) (fun b hb => ⟨b, hb⟩) ?_ ?_
  · intro w' k hw'
    exact ⟨w', hother hw' (by simp) (by simp [hj]) (by simp)⟩
  · intro w' hw'
    exact ⟨w', hother hw' (by simp) (by simp) (by simp [hj])⟩

/-! ## The moves -/

section

variable (h : LifeInv status dependents role)

include h

theorem LifeInv.issue (hs : status v.txIdx = ⟨v.txIncarnation, .readyToExecute⟩) (w : ω) :
    LifeInv (update status v.txIdx ⟨v.txIncarnation, .executing⟩) dependents
      (update role w (.executing v)) := by
  have hu : Unheld dependents role v.txIdx := h.unheld (by rw [hs]; simp) (by rw [hs]; simp)
  exact (h.setStatus hu _).takeExec hu (update_self _ _ _) w

theorem LifeInv.wait (hw : role w = .executing v) (b : TxIdx) :
    LifeInv (update status v.txIdx { status v.txIdx with status := .aborting })
      (update dependents b (dependents b ++ [v.txIdx])) (update role w .free) := by
  have hu := h.unheld_drop_exec hw
  exact ((h.drop w).setStatus hu _).addDep hu (by simp) b

theorem LifeInv.finish (hw : role w = .executing v) (x : TxStatus) :
    LifeInv (update status v.txIdx x) dependents (update role w .free) :=
  (h.drop w).setStatus (h.unheld_drop_exec hw) x

theorem LifeInv.abort (he : (status i).status ≠ .executing) (ha : (status i).status ≠ .aborting)
    (w : ω) :
    LifeInv (update status i { status i with status := .aborting }) dependents
      (update role w (.aborting i)) :=
  (h.setStatus (h.unheld he ha) _).takeAbort (h.unheld he ha) (by simp) w

theorem LifeInv.release (hw : role w = .aborting i) (x : TxStatus) :
    LifeInv (update status i x) dependents (update role w .free) :=
  (h.drop w).setStatus (h.unheld_drop_abort hw) x

end

section

variable (h : LifeCycle status dependents role)

include h

theorem LifeCycle.issue (hw : role w = .free)
    (hs : status v.txIdx = ⟨v.txIncarnation, .readyToExecute⟩) :
    LifeCycle (update status v.txIdx ⟨v.txIncarnation, .executing⟩) dependents
      (update role w (.executing v)) where
  life := h.life.issue hs w
  owned := by
    intro j
    by_cases hj : j = v.txIdx
    · subst hj
      exact ⟨fun _ => ⟨w, by simp⟩, fun ha => by simp at ha⟩
    · exact (h.owned j).frame hj (.inl hw)

theorem LifeCycle.wait (hw : role w = .executing v) (b : TxIdx) :
    LifeCycle (update status v.txIdx { status v.txIdx with status := .aborting })
      (update dependents b (dependents b ++ [v.txIdx])) (update role w .free) where
  life := h.life.wait hw b
  owned := by
    have hadd : ∀ {b' j}, j ∈ dependents b' →
        j ∈ update dependents b (dependents b ++ [v.txIdx]) b' := by
      intro b' j hj
      by_cases hb : b' = b
      · subst hb; rw [update_self]; exact List.mem_append_left _ hj
      · rwa [update_of_ne hb]
    intro j
    by_cases hj : j = v.txIdx
    · subst hj
      exact ⟨fun he => by simp at he, fun _ => .inl ⟨b, by simp⟩⟩
    · exact ((h.owned j).frame hj (.inr (.inl ⟨_, hw⟩))).congr rfl
        (fun b' hb => ⟨b', hadd hb⟩) (fun w' _ h1 => ⟨w', h1⟩) (fun w' h1 => ⟨w', h1⟩)

theorem LifeCycle.finish (hw : role w = .executing v) (he : x.status ≠ .executing)
    (ha : x.status ≠ .aborting) :
    LifeCycle (update status v.txIdx x) dependents (update role w .free) where
  life := h.life.finish hw x
  owned := by
    intro j
    by_cases hj : j = v.txIdx
    · subst hj
      exact OwnedAt.of_status (by simpa using he) (by simpa using ha)
    · exact (h.owned j).frame hj (.inr (.inl ⟨_, hw⟩))

theorem LifeCycle.abort (hw : role w = .free) (he : (status i).status ≠ .executing)
    (ha : (status i).status ≠ .aborting) :
    LifeCycle (update status i { status i with status := .aborting }) dependents
      (update role w (.aborting i)) where
  life := h.life.abort he ha w
  owned := by
    intro j
    by_cases hj : j = i
    · subst hj
      exact ⟨fun hx => by simp at hx, fun _ => .inr ⟨w, by simp⟩⟩
    · exact (h.owned j).frame hj (.inl hw)

theorem LifeCycle.release (hw : role w = .aborting i) (he : x.status ≠ .executing)
    (ha : x.status ≠ .aborting) :
    LifeCycle (update status i x) dependents (update role w .free) where
  life := h.life.release hw x
  owned := by
    intro j
    by_cases hj : j = i
    · subst hj
      exact OwnedAt.of_status (by simpa using he) (by simpa using ha)
    · exact (h.owned j).frame hj (.inr (.inr hw))

end

end Roles

theorem LifeCycle.settle (h : LifeCycle status dependents role)
    (he : (status i).status ≠ .executing) (ha : (status i).status ≠ .aborting)
    (he' : x.status ≠ .executing) (ha' : x.status ≠ .aborting) :
    LifeCycle (update status i x) dependents role where
  life := h.life.setStatus (h.life.unheld he ha) x
  owned := by
    intro j
    by_cases hj : j = i
    · subst hj
      exact OwnedAt.of_status (by simpa using he') (by simpa using ha')
    · exact (h.owned j).congr (update_of_ne hj _ _) (fun b hb => ⟨b, hb⟩)
        (fun w _ hw => ⟨w, hw⟩) (fun w hw => ⟨w, hw⟩)

theorem LifeCycle.drain (h : LifeCycle status dependents role) (b : TxIdx) :
    LifeCycle (resumed status (dependents b)) (update dependents b []) role where
  life := h.life.drain b
  owned := by
    intro j
    by_cases hj : j ∈ dependents b
    · exact OwnedAt.of_status (by simp [resumed, hj]) (by simp [resumed, hj])
    · refine (h.owned j).congr (by rw [resumed, if_neg hj]) (fun b' hb => ⟨b', ?_⟩)
        (fun w _ hw => ⟨w, hw⟩) (fun w hw => ⟨w, hw⟩)
      have hne : b' ≠ b := by rintro rfl; exact hj hb
      rwa [update_of_ne hne]

theorem LifeInv.drainOne (h : LifeInv status dependents role) (hb : dependents b = i :: rest)
    (x : TxStatus) :
    LifeInv (update status i x) (update dependents b rest) role :=
  (h.shrinkDep (hb ▸ List.sublist_cons_self i rest)).setStatus (h.unheld_removeDep hb) x

theorem LifeCycle.drainOne (h : LifeCycle status dependents role) (hb : dependents b = i :: rest)
    (he : x.status ≠ .executing) (ha : x.status ≠ .aborting) :
    LifeCycle (update status i x) (update dependents b rest) role where
  life := h.life.drainOne hb x
  owned := by
    intro j
    by_cases hj : j = i
    · subst hj
      exact OwnedAt.of_status (by simpa using he) (by simpa using ha)
    · refine (h.owned j).congr (update_of_ne hj _ _) (fun b' hb' => ⟨b', ?_⟩)
        (fun w _ hw => ⟨w, hw⟩) (fun w hw => ⟨w, hw⟩)
      by_cases hbb : b' = b
      · subst hbb
        rw [hb] at hb'
        rw [update_self]
        exact (List.mem_cons.mp hb').resolve_left hj
      · rwa [update_of_ne hbb]

/-! ## The order of issue -/

/-- The incarnation of a transaction may not fall, and a status that becomes ready belongs to a new
incarnation. -/
theorem IssueInv.mono (h : IssueInv status issued)
    (hle : ∀ i, (status i).incarnation ≤ (status' i).incarnation)
    (hready : ∀ i, (status' i).status = .readyToExecute →
      status' i = status i ∨ (status i).incarnation < (status' i).incarnation) :
    IssueInv status' issued where
  sorted := h.sorted
  le := fun v hv => (h.le v hv).trans (hle v.txIdx)
  fresh := by
    intro v hv hs
    rcases hready v.txIdx hs with he | hlt
    · rw [he] at hs ⊢
      exact h.fresh v hv hs
    · exact (h.le v hv).trans_lt hlt

theorem IssueInv.setStatus (h : IssueInv status issued)
    (hx : (status i).incarnation < x.incarnation ∨
      ((status i).incarnation = x.incarnation ∧ x.status ≠ .readyToExecute)) :
    IssueInv (update status i x) issued := by
  refine h.mono (fun j => ?_) fun j hj => ?_
  · by_cases hji : j = i
    · subst hji
      rw [update_self]
      rcases hx with hlt | ⟨heq, -⟩
      · exact hlt.le
      · exact heq.le
    · rw [update_of_ne hji]
  · by_cases hji : j = i
    · subst hji
      rw [update_self] at hj ⊢
      exact .inr (hx.resolve_right fun h => h.2 hj)
    · exact .inl (update_of_ne hji _ _)

theorem IssueInv.issue (h : IssueInv status issued)
    (hs : status v.txIdx = ⟨v.txIncarnation, .readyToExecute⟩) :
    IssueInv (update status v.txIdx ⟨v.txIncarnation, .executing⟩) (issued ++ [v]) where
  sorted := by
    refine List.pairwise_append.mpr ⟨h.sorted, List.pairwise_singleton _ _, ?_⟩
    intro a ha b hb hab
    rw [List.mem_singleton] at hb
    subst hb
    have := h.fresh a ha (by rw [hab, hs])
    rwa [hab, hs] at this
  le := by
    intro a ha
    rcases List.mem_append.mp ha with ha | ha
    · by_cases he : a.txIdx = v.txIdx
      · have := h.le a ha
        rw [he, hs] at this
        rw [he, update_self]
        exact this
      · rw [update_of_ne he]
        exact h.le a ha
    · rw [List.mem_singleton] at ha
      subst ha
      rw [update_self]
  fresh := by
    intro a ha hr
    by_cases he : a.txIdx = v.txIdx
    · rw [he, update_self] at hr
      cases hr
    · rw [update_of_ne he] at hr ⊢
      rcases List.mem_append.mp ha with ha | ha
      · exact h.fresh a ha hr
      · rw [List.mem_singleton] at ha
        exact absurd (ha ▸ rfl) he

end CongestionControl.Pevm
