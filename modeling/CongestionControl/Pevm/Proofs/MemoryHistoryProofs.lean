import CongestionControl.Pevm.MemoryHistory
import CongestionControl.Pevm.Proofs.MvMemoryProofs

/-!
# Proofs: what `record` leaves after any history

The locations of the previous record are known to the transaction, so its entries there are replaced
or removed. A marker that the memory was created with is not known to it: it stays until the
transaction writes the location for the first time.
-/

namespace CongestionControl.Pevm

open Function (update)

variable {L V : Type} [DecidableEq L] {estimated : List (L × List TxIdx)}
  {calls : List (MemoryCall L V)} {m : MvMemory L V}

theorem entry_new (estimated : List (L × List TxIdx)) (l : L) (i : TxIdx) :
    (MvMemory.new estimated : MvMemory L V).entry l i ≠ none ↔ EstimatedAt estimated l i := by
  unfold EstimatedAt
  induction estimated using List.reverseRecOn with
  | nil => simp [MvMemory.new, MvMemory.entry, lastWrite]
  | append_singleton estimated p ih =>
    rw [lastWrite_append]
    simp only [MvMemory.new, MvMemory.entry, List.foldl_append, List.foldl_cons, List.foldl_nil]
      at ih ⊢
    by_cases hl : l = p.1
    · subst hl
      by_cases hi : i ∈ p.2 <;> simp [lastWrite, hi]
    · have hnone : lastWrite [p] l = none := by simp [lastWrite, Ne.symm hl]
      rw [Function.update_of_ne hl, hnone]
      exact ih

omit [DecidableEq L] in
theorem recordedBy_append (call : MemoryCall L V) (i : TxIdx) :
    recordedBy (calls ++ [call]) i = recordedBy calls i ++ (call.writeSetOf i).toList := by
  cases h : call.writeSetOf i <;> simp [recordedBy, h]

/-- The memory knows the locations of the previous record of each transaction. Elsewhere the
transaction has an entry only where the memory was created with one that no record has replaced. -/
structure CallsInv (estimated : List (L × List TxIdx)) (calls : List (MemoryCall L V))
    (m : MvMemory L V) : Prop where
  last : ∀ l i, l ∈ (m.lastLocations i).write ↔ Writes (previousWrites calls i) l
  present : ∀ i, ∀ l ∈ (m.lastLocations i).write, m.entry l i ≠ none
  absent : ∀ l i, l ∉ (m.lastLocations i).write →
    (m.entry l i ≠ none ↔ EstimatedAt estimated l i ∧ ∀ ws ∈ recordedBy calls i, ¬Writes ws l)

namespace CallsInv

theorem new (estimated : List (L × List TxIdx)) :
    CallsInv estimated [] (MvMemory.new estimated : MvMemory L V) where
  last l i := by simp [MvMemory.new, previousWrites, recordedBy, Writes]
  present i l hl := absurd hl (by simp [MvMemory.new])
  absent l i _ := by
    rw [entry_new]
    simp [recordedBy]

variable (h : CallsInv estimated calls m)
include h

theorem convert (i : TxIdx) :
    CallsInv estimated (calls ++ [.convertWritesToEstimates i]) (m.convertWritesToEstimates i) := by
  have hrecorded : ∀ j, recordedBy (calls ++ [MemoryCall.convertWritesToEstimates i]) j =
      recordedBy calls j := by
    intro j
    rw [recordedBy_append]
    exact List.append_nil _
  have hlast : (m.convertWritesToEstimates i).lastLocations = m.lastLocations := rfl
  refine ⟨fun l j => ?_, fun j l hl => ?_, fun l j hl => ?_⟩
  · rw [previousWrites, hrecorded]
    exact h.last l j
  · rw [MvMemory.convert_entry (h.present i)]
    split
    · exact Option.some_ne_none _
    · exact h.present j l hl
  · have hnot : ¬(j = i ∧ l ∈ (m.lastLocations i).write) := by
      rintro ⟨rfl, hmem⟩
      exact hl hmem
    rw [MvMemory.convert_entry (h.present i), if_neg hnot, hrecorded]
    exact h.absent l j hl

theorem entry_of_not_writes {version : TxVersion} {readSet : ReadSet L} {writeSet : WriteSet L V}
    {l : L} (hl : ¬Writes writeSet l) :
    (m.record version readSet writeSet).1.entry l version.txIdx ≠ none ↔
      EstimatedAt estimated l version.txIdx ∧
        ∀ ws ∈ recordedBy calls version.txIdx, ¬Writes ws l := by
  have hspec := MvMemory.record_spec m version readSet writeSet
  rw [hspec.own, lastWrite_eq_none.mpr hl, Option.map_none]
  by_cases hmem : l ∈ (m.lastLocations version.txIdx).write
  · rw [if_pos hmem]
    refine iff_of_false (fun hne => hne rfl) ?_
    rintro ⟨-, hall⟩
    -- The location is in the previous record.
    have hprev := (h.last l version.txIdx).mp hmem
    unfold previousWrites at hprev
    cases hlast : (recordedBy calls version.txIdx).getLast? with
    | none =>
      rw [hlast] at hprev
      obtain ⟨x, hx⟩ := hprev
      exact List.not_mem_nil hx
    | some ws =>
      rw [hlast] at hprev
      exact hall ws (List.mem_of_getLast? hlast) hprev
  · rw [if_neg hmem]
    exact h.absent l version.txIdx hmem

theorem record (version : TxVersion) (readSet : ReadSet L) (writeSet : WriteSet L V) :
    CallsInv estimated (calls ++ [.record version readSet writeSet])
      (m.record version readSet writeSet).1 := by
  have hspec := MvMemory.record_spec m version readSet writeSet
  have hself : recordedBy (calls ++ [.record version readSet writeSet]) version.txIdx =
      recordedBy calls version.txIdx ++ [writeSet] := by
    rw [recordedBy_append, MemoryCall.writeSetOf, if_pos rfl]
    rfl
  have hother : ∀ j, j ≠ version.txIdx →
      recordedBy (calls ++ [.record version readSet writeSet]) j = recordedBy calls j := by
    intro j hj
    rw [recordedBy_append, MemoryCall.writeSetOf, if_neg (Ne.symm hj)]
    exact List.append_nil _
  refine ⟨fun l j => ?_, fun j l hl => ?_, fun l j hl => ?_⟩
  · by_cases hj : j = version.txIdx
    · subst hj
      rw [hspec.last_write, previousWrites, hself, List.getLast?_concat, Option.getD_some]
    · rw [hspec.last_other j hj, previousWrites, hother j hj]
      exact h.last l j
  · by_cases hj : j = version.txIdx
    · subst hj
      obtain ⟨x, hx⟩ := lastWrite_eq_some ((hspec.last_write l).mp hl)
      rw [hspec.own, hx]
      exact Option.some_ne_none _
    · rw [hspec.last_other j hj] at hl
      rw [hspec.other l j hj]
      exact h.present j l hl
  · by_cases hj : j = version.txIdx
    · subst hj
      have hnot : ¬Writes writeSet l := fun hw => hl ((hspec.last_write l).mpr hw)
      rw [h.entry_of_not_writes hnot, hself]
      simp [or_imp, forall_and, hnot]
    · rw [hspec.last_other j hj] at hl
      rw [hspec.other l j hj, hother j hj]
      exact h.absent l j hl

end CallsInv

theorem CallsInv.afterCalls (estimated : List (L × List TxIdx)) (calls : List (MemoryCall L V)) :
    CallsInv estimated calls ((MvMemory.new estimated).afterCalls calls) := by
  induction calls using List.reverseRecOn with
  | nil => exact .new estimated
  | append_singleton calls call ih =>
    rw [MvMemory.afterCalls, List.foldl_append]
    cases call with
    | record version readSet writeSet => exact ih.record version readSet writeSet
    | convertWritesToEstimates i => exact ih.convert i

/-- After any history a record installs its write set, leaves the other transactions alone and tells
whether it has written a location that the previous record had not. It leaves nothing else of the
transaction exactly if the transaction has by then written every location at which the memory was
created with a marker for it. -/
theorem record_installs_iff (estimated : List (L × List TxIdx)) (calls : List (MemoryCall L V))
    (version : TxVersion) (readSet : ReadSet L) (writeSet : WriteSet L V) :
    let m := (MvMemory.new estimated).afterCalls calls
    let m' := (m.record version readSet writeSet).1
    (∀ l x, lastWrite writeSet l = some x →
      m'.entry l version.txIdx = some (.data version.txIncarnation x)) ∧
    (∀ l j, j ≠ version.txIdx → m'.entry l j = m.entry l j) ∧
    ((m.record version readSet writeSet).2 = true ↔
      ∃ l, Writes writeSet l ∧ ¬Writes (previousWrites calls version.txIdx) l) ∧
    ((∀ l, ¬Writes writeSet l → m'.entry l version.txIdx = none) ↔
      ∀ l, EstimatedAt estimated l version.txIdx →
        Writes writeSet l ∨ ∃ ws ∈ recordedBy calls version.txIdx, Writes ws l) := by
  intro m m'
  have hinv : CallsInv estimated calls m := .afterCalls estimated calls
  have hspec := MvMemory.record_spec m version readSet writeSet
  have hleft : ∀ l, ¬Writes writeSet l → (m'.entry l version.txIdx ≠ none ↔
      EstimatedAt estimated l version.txIdx ∧
        ∀ ws ∈ recordedBy calls version.txIdx, ¬Writes ws l) :=
    fun l hl => hinv.entry_of_not_writes hl
  refine ⟨fun l x hx => ?_, hspec.other, ?_, fun hgone l hl => ?_, fun hall l hl => ?_⟩
  · rw [hspec.own, hx]
    rfl
  · rw [hspec.wroteNew]
    exact exists_congr fun l => and_congr_right fun _ => not_congr (hinv.last l version.txIdx)
  · by_contra hnot
    push Not at hnot
    exact (hleft l hnot.1).mpr ⟨hl, hnot.2⟩ (hgone l hnot.1)
  · by_contra hne
    obtain ⟨hestimated, hnever⟩ := (hleft l hl).mp hne
    rcases hall l hestimated with hw | ⟨ws, hws, hw⟩
    · exact hl hw
    · exact hnever ws hws hw

/-- A marker that the memory was created with survives a record that does not write the location. -/
theorem initial_estimate_stays :
    let m : MvMemory Nat Nat := .new [(7, [0])]
    ¬Writes ([] : WriteSet Nat Nat) 7 ∧ (m.record ⟨0, 0⟩ [] []).1.entry 7 0 = some .estimate := by
  refine ⟨fun ⟨x, hx⟩ => List.not_mem_nil hx, by decide⟩

end CongestionControl.Pevm
