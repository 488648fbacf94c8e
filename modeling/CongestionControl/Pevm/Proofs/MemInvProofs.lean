import CongestionControl.Pevm.Proofs.MvMemoryProofs

/-!
# Proofs: the steps that change the multi-version memory

`record` puts the writes of a transaction on show and `convert_writes_to_estimates` hides them.
Neither makes a read set of a lower transaction invalid, and `record` does so to a higher one only
if it reports a new location.
-/

namespace CongestionControl.Pevm

open Function (update update_of_ne update_self)
open VersionMap MvMemory

variable {L V : Type} [DecidableEq L] {block : Block L V} {m m' : MvMemory L V}
  {records records' : TxIdx → Record L V} {live live' : TxIdx → Prop} {i : TxIdx} {r : Read L V}

omit [DecidableEq L] in
/-- A read stays justified if no entry of a recorded incarnation appears. -/
theorem Justified.of_entry {storage : L → V} {r : Read L V}
    (hp : ∀ j, (records j).published ≤ (records' j).published)
    (he : ∀ l j k y, k < (records j).published → m'.entry l j = some (.data k y) →
      m.entry l j = some (.data k y))
    (h : Justified storage m records r) : Justified storage m' records' r := by
  unfold Justified at h ⊢
  cases ho : r.origin with
  | storage => rw [ho] at h; exact h
  | mvMemory v =>
    rw [ho] at h
    exact ⟨h.1.trans_le (hp _), fun y hy => h.2 y (he _ _ _ _ h.1 hy)⟩

theorem MemInv.justified_of_sees (h : MemInv block m records live) (hs : m.Sees block.storage i r) :
    Justified block.storage m records r := by
  unfold Sees at hs
  unfold Justified
  cases ho : r.origin with
  | storage => rw [ho] at hs; exact hs.2
  | mvMemory v =>
    rw [ho] at hs
    obtain ⟨-, hentry, -⟩ := lastBelow_eq_some.mp hs
    refine ⟨?_, fun y hy => ?_⟩
    · by_cases hl : live v.txIdx
      · obtain ⟨k, hk, hall⟩ := h.shown hl
        rw [hall] at hentry
        obtain ⟨x, -, hx⟩ := Option.map_eq_some_iff.mp hentry
        cases hx
        exact hk
      · rw [h.hidden hl] at hentry
        obtain ⟨x, -, hx⟩ := Option.map_eq_some_iff.mp hentry
        cases hx
    · rw [hentry] at hy
      cases hy
      rfl

section Record

variable {v : TxVersion} {log : List (Read L V)} {ws : WriteSet L V} {b : Bool}

def recorded (records : TxIdx → Record L V) (v : TxVersion) (log : List (Read L V))
    (ws : WriteSet L V) : TxIdx → Record L V :=
  update records v.txIdx ⟨v.txIncarnation + 1, log, ws⟩

section

variable (h : MemInv block m records live)

include h

theorem MemInv.entry_of_not_mem {l : L} (hl : l ∉ (m.lastLocations i).write) :
    m.entry l i = none := by
  have hw : lastWrite (records i).writes l = none :=
    lastWrite_eq_none.mpr fun hw => hl ((h.write i l).mpr hw)
  by_cases hlive : live i
  · obtain ⟨k, -, hall⟩ := h.shown hlive
    rw [hall, hw, Option.map_none]
  · rw [h.hidden hlive, hw, Option.map_none]

section

variable (hs : RecordSpec m m' v (readSetOf log) ws b)

include hs

theorem MemInv.record_own (l : L) :
    m'.entry l v.txIdx = (lastWrite ws l).map (.data v.txIncarnation) := by
  rw [hs.own]
  by_cases hl : l ∈ (m.lastLocations v.txIdx).write
  · rw [if_pos hl, Option.or_none]
  · rw [if_neg hl, h.entry_of_not_mem hl, Option.or_none]

theorem MemInv.record_justified (hp : (records v.txIdx).published ≤ v.txIncarnation)
    (hr : Justified block.storage m records r) :
    Justified block.storage m' (recorded records v log ws) r := by
  refine hr.of_entry (fun j => ?_) fun l j k y hk hy => ?_
  · by_cases hj : j = v.txIdx
    · subst hj
      simp only [recorded, update_self]
      exact hp.trans (Nat.le_succ _)
    · simp [recorded, hj]
  · by_cases hj : j = v.txIdx
    · subst hj
      rw [h.record_own hs] at hy
      obtain ⟨x, -, hx⟩ := Option.map_eq_some_iff.mp hy
      cases hx
      exact absurd hk (Nat.not_lt.mpr hp)
    · rwa [hs.other l j hj] at hy

theorem MemInv.record (hp : (records v.txIdx).published ≤ v.txIncarnation)
    (hlog : ∀ r ∈ log, Justified block.storage m records r)
    (hbody : Follows log (block.body v.txIdx) (.done ws))
    (hlive : ∀ j, live' j ↔ live j ∨ j = v.txIdx) :
    MemInv block m' (recorded records v log ws) live' where
  read := by
    intro j
    by_cases hj : j = v.txIdx
    · subst hj; simp only [recorded, update_self]; exact hs.last_read
    · rw [hs.last_other j hj, h.read j, recorded, update_of_ne hj]
  write := by
    intro j l
    by_cases hj : j = v.txIdx
    · subst hj; simp only [recorded, update_self]; exact hs.last_write l
    · rw [hs.last_other j hj, h.write j l, recorded, update_of_ne hj]
  shown := by
    intro j hj
    by_cases hjv : j = v.txIdx
    · subst hjv
      refine ⟨v.txIncarnation, ?_, fun l => ?_⟩
      · simp [recorded]
      · rw [h.record_own hs, recorded, update_self]
    · obtain ⟨k, hk, hall⟩ := h.shown (((hlive j).mp hj).resolve_right hjv)
      rw [recorded, update_of_ne hjv]
      exact ⟨k, hk, fun l => by rw [hs.other l j hjv, hall]⟩
  hidden := by
    intro j hj l
    have hjv : j ≠ v.txIdx := fun he => hj ((hlive j).mpr (.inr he))
    rw [hs.other l j hjv, h.hidden fun hl => hj ((hlive j).mpr (.inl hl)), recorded,
      update_of_ne hjv]
  justified := by
    intro j r hr
    refine h.record_justified hs hp ?_
    by_cases hj : j = v.txIdx
    · subst hj
      simp only [recorded, update_self] at hr
      exact hlog r hr
    · rw [recorded, update_of_ne hj] at hr
      exact h.justified hr
  follows := by
    intro j hj
    by_cases hjv : j = v.txIdx
    · subst hjv; simp only [recorded, update_self]; exact hbody
    · rw [recorded, update_of_ne hjv]
      exact h.follows (((hlive j).mp hj).resolve_right hjv)

end

end

omit [DecidableEq L] in
/-- A read that finds an origin does not look past an ESTIMATE, so the entry below one may change. -/
theorem currentOrigin_of_hidden {l : L} {i j : Nat} {o : ReadOrigin}
    (hother : ∀ j', j' ≠ j → m'.entry l j' = m.entry l j')
    (hsame : m.entry l j = none → m'.entry l j = none)
    (hno : ∀ k x, m.entry l j ≠ some (.data k x))
    (h : m.currentOrigin l i = some o) : m'.currentOrigin l i = some o := by
  cases hj : m.entry l j with
  | none =>
    rw [currentOrigin_congr fun j' _ => ?_, h]
    by_cases hjj : j' = j
    · subst hjj; rw [hj, hsame hj]
    · exact hother j' hjj
  | some e =>
    by_cases hij : i ≤ j
    · rw [currentOrigin_congr fun j' hj' => hother j' (Nat.ne_of_lt (Nat.lt_of_lt_of_le hj' hij)), h]
    -- The transaction hides the lower ones, so the read found a higher one.
    cases o with
    | storage =>
      have := lastBelow_eq_none.mp (currentOrigin_eq_storage.mp h) j (by omega)
      rw [this] at hj
      cases hj
    | mvMemory v =>
      obtain ⟨x, hx⟩ := currentOrigin_eq_mvMemory.mp h
      obtain ⟨-, hv, hgap⟩ := lastBelow_eq_some.mp hx
      have hlt : j < v.txIdx := by
        rcases Nat.lt_trichotomy j v.txIdx with hlt | heq | hgt
        · exact hlt
        · exact absurd (heq ▸ hv) (hno _ _)
        · rw [hgap j hgt (by omega)] at hj; cases hj
      refine currentOrigin_eq_mvMemory.mpr ⟨x, lastBelow_eq_some_congr hx fun k hk _ => ?_⟩
      exact hother k (Nat.ne_of_gt (Nat.lt_of_lt_of_le hlt hk))

theorem MemInv.valid_record (h : MemInv block m records live) (hn : ¬ live v.txIdx)
    (hs : RecordSpec m m' v (readSetOf log) ws b) (hi : i ≠ v.txIdx)
    (hv : m.validateReadLocations i = true) :
    (b = true ∧ v.txIdx < i) ∨ m'.validateReadLocations i = true := by
  by_cases hb : b = true ∧ v.txIdx < i
  · exact .inl hb
  refine .inr ((validateReadLocations_iff ((hs.last_other i hi).symm ▸ h.read i)).mpr ?_)
  intro r hr
  have ho := (validateReadLocations_iff (h.read i)).mp hv r hr
  by_cases hlt : v.txIdx < i
  · -- No new location: every write replaces an ESTIMATE.
    have hnew : ¬ ∃ l, Writes ws l ∧ l ∉ (m.lastLocations v.txIdx).write :=
      fun he => hb ⟨hs.wroteNew.mpr he, hlt⟩
    refine currentOrigin_of_hidden (fun j hj => hs.other _ j hj) (fun hnone => ?_)
      (fun k x hx => ?_) ho
    · rw [h.record_own hs, Option.map_eq_none_iff, lastWrite_eq_none]
      intro hw
      rw [h.hidden hn, Option.map_eq_none_iff, lastWrite_eq_none, ← h.write] at hnone
      exact hnew ⟨_, hw, hnone⟩
    · rw [h.hidden hn] at hx
      obtain ⟨y, -, hy⟩ := Option.map_eq_some_iff.mp hx
      cases hy
  · rw [currentOrigin_congr fun j hj => hs.other _ j ?_, ho]
    intro he
    exact hlt (he ▸ hj)

end Record

section Convert

variable {i : TxIdx}

section

variable (h : MemInv block m records live)

include h

theorem MemInv.convert_eq (hi : live i) (l : L) (j : TxIdx) :
    (m.convertWritesToEstimates i).entry l j =
      if j = i ∧ l ∈ (m.lastLocations i).write then some .estimate else m.entry l j := by
  refine convert_entry (fun l hl => ?_) l j
  obtain ⟨k, -, hall⟩ := h.shown hi
  obtain ⟨x, hx⟩ := lastWrite_eq_some ((h.write i l).mp hl)
  rw [hall, hx]
  simp

theorem MemInv.convert_justified (hi : live i) (hr : Justified block.storage m records r) :
    Justified block.storage (m.convertWritesToEstimates i) records r := by
  refine hr.of_entry (fun j => le_rfl) fun l j k y _ hy => ?_
  rw [h.convert_eq hi] at hy
  split at hy
  · cases hy
  · exact hy

theorem MemInv.convert (hi : live i) (hlive : ∀ j, live' j ↔ live j ∧ j ≠ i) :
    MemInv block (m.convertWritesToEstimates i) records live' where
  read := h.read
  write := h.write
  shown := by
    intro j hj
    obtain ⟨hj, hne⟩ := (hlive j).mp hj
    obtain ⟨k, hk, hall⟩ := h.shown hj
    exact ⟨k, hk, fun l => by rw [h.convert_eq hi, if_neg fun he => hne he.1, hall]⟩
  hidden := by
    intro j hj l
    rw [h.convert_eq hi]
    by_cases hji : j = i
    · subst hji
      by_cases hl : l ∈ (m.lastLocations j).write
      · obtain ⟨x, hx⟩ := lastWrite_eq_some ((h.write j l).mp hl)
        simp [hl, hx]
      · rw [if_neg fun he => hl he.2, h.entry_of_not_mem hl,
          lastWrite_eq_none.mpr fun hw => hl ((h.write j l).mpr hw), Option.map_none]
    · rw [if_neg fun he => hji he.1, h.hidden fun hl => hj ((hlive j).mpr ⟨hl, hji⟩)]
  justified := fun hr => h.convert_justified hi (h.justified hr)
  follows := fun hj => h.follows ((hlive _).mp hj).1

theorem MemInv.valid_convert (hi : live i) {j : TxIdx} (hj : j ≤ i)
    (hv : m.validateReadLocations j = true) :
    (m.convertWritesToEstimates i).validateReadLocations j = true := by
  refine (validateReadLocations_iff (m := m.convertWritesToEstimates i) (h.read j)).mpr ?_
  intro r hr
  have ho := (validateReadLocations_iff (h.read j)).mp hv r hr
  rw [currentOrigin_congr fun k hk => ?_, ho]
  rw [h.convert_eq hi, if_neg fun he => Nat.ne_of_lt (Nat.lt_of_lt_of_le hk hj) he.1]

end

end Convert

end CongestionControl.Pevm
