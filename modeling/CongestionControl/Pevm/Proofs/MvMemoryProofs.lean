import CongestionControl.Pevm.EngineInv

/-!
# Proofs: what the calls on the multi-version memory do

`record` replaces the entries of one transaction by those of its new write set, and
`convert_writes_to_estimates` marks them; a recorded read set is valid exactly when every location
would be read from the same origin again.
-/

namespace CongestionControl.Pevm

open Function (update)
open VersionMap

variable {L V : Type} [DecidableEq L] {ws : WriteSet L V} {l : L}

/-! ## Write sets -/

theorem lastWrite_append (ws ws' : WriteSet L V) (l : L) :
    lastWrite (ws ++ ws') l = (lastWrite ws' l).or (lastWrite ws l) := by
  simp only [lastWrite, List.reverse_append, List.find?_append]
  cases ws'.reverse.find? fun p => p.1 = l <;> simp

theorem lastWrite_cons (p : L × V) (ws : WriteSet L V) (l : L) :
    lastWrite (p :: ws) l = (lastWrite ws l).or (if p.1 = l then some p.2 else none) := by
  by_cases h : p.1 = l <;> simp [lastWrite, h]

theorem lastWrite_eq_none : lastWrite ws l = none ↔ ¬ Writes ws l := by
  simp only [lastWrite, Option.map_eq_none_iff, List.find?_eq_none, List.mem_reverse, Writes,
    decide_eq_true_eq, Prod.forall, not_exists]
  constructor
  · intro h x hx; exact h l x hx rfl
  · rintro h a x hx rfl; exact h x hx

theorem lastWrite_eq_some (h : Writes ws l) :
    ∃ x, lastWrite ws l = some x :=
  Option.ne_none_iff_exists'.mp fun hn => lastWrite_eq_none.mp hn h

theorem applyWrites_apply (state : L → V) (ws : WriteSet L V) (l : L) :
    applyWrites state ws l = (lastWrite ws l).getD (state l) := by
  induction ws generalizing state with
  | nil => rfl
  | cons p ws ih =>
    rw [show applyWrites state (p :: ws) = applyWrites (update state p.1 p.2) ws from rfl, ih,
      lastWrite_cons]
    cases lastWrite ws l with
    | some x => simp
    | none =>
      by_cases h : p.1 = l
      · subst h; simp
      · simp [h, Function.update_of_ne (Ne.symm h)]

/-! ## Entries -/

namespace MvMemory

def entryOf (data : L → Option (Versions V)) (l : L) (j : TxIdx) : Option (MemoryEntry V) :=
  (data l).bind fun written => written j

theorem entryOf_removeEntry (data : L → Option (Versions V)) (l l' : L) (i j : TxIdx) :
    entryOf (removeEntry data l i) l' j = if l' = l ∧ j = i then none else entryOf data l' j := by
  by_cases hl : l' = l
  · subst hl
    by_cases hj : j = i
    · subst hj; cases h : data l' <;> simp [entryOf, removeEntry, h]
    · cases h : data l' <;> simp [entryOf, removeEntry, h, hj]
  · simp [entryOf, removeEntry, hl]

theorem entryOf_insertEntry (data : L → Option (Versions V)) (l l' : L) (i j : TxIdx)
    (e : MemoryEntry V) :
    entryOf (insertEntry data l i e) l' j =
      if l' = l ∧ j = i then some e else entryOf data l' j := by
  by_cases hl : l' = l
  · subst hl
    by_cases hj : j = i
    · subst hj; simp [entryOf, insertEntry]
    · cases h : data l' <;> simp [entryOf, insertEntry, h, hj]
  · simp [entryOf, insertEntry, hl]

/-! ## The loop over the previous locations -/

def swapped {α : Type} (suf : List α) : List α :=
  match suf.getLast? with
  | none => []
  | some y => y :: suf.dropLast

variable {α : Type} {m : MvMemory L V} {i : TxIdx} {log : List (Read L V)} {storage : L → V}
  {readSet : ReadSet L}

theorem swapRemove_append (pre suf : List α) (x : α) :
    swapRemove (pre ++ x :: suf) pre.length = pre ++ swapped suf := by
  rcases List.eq_nil_or_concat suf with rfl | ⟨suf', y, rfl⟩
  · simp [swapRemove, swapped]
  · rw [List.concat_eq_append]
    have h1 : (pre ++ x :: (suf' ++ [y])).getLast? = some y := by
      rw [← List.cons_append, ← List.append_assoc, List.getLast?_concat]
    have h2 : (pre ++ x :: (suf' ++ [y])).set pre.length y = (pre ++ y :: suf') ++ [y] := by
      simp
    rw [swapRemove, h1]
    simp only [h2, List.dropLast_concat, swapped, List.getLast?_concat]

theorem mem_swapped {suf : List α} {x : α} : x ∈ swapped suf ↔ x ∈ suf := by
  rcases List.eq_nil_or_concat suf with rfl | ⟨suf', y, rfl⟩
  · simp [swapped]
  · simp only [swapped, List.concat_eq_append, List.getLast?_concat, List.dropLast_concat]
    rw [List.mem_append, List.mem_singleton, List.mem_cons, or_comm]

theorem length_swapped (suf : List α) : (swapped suf).length = suf.length := by
  rcases List.eq_nil_or_concat suf with rfl | ⟨suf', y, rfl⟩
  · rfl
  · simp [swapped]

/-- The loop over the previous locations, from the position behind `pre`: the locations of `suf`
that are not written again lose their entry and leave the list. -/
theorem removeStale_spec (ws : WriteSet L V) (i : TxIdx) : ∀ (fuel : Nat)
    (data : L → Option (Versions V)) (pre suf : List L), suf.length ≤ fuel →
    (∀ l j, entryOf (removeStale ws i fuel data (pre ++ suf) pre.length).1 l j =
      if j = i ∧ l ∈ suf ∧ lastWrite ws l = none then none else entryOf data l j) ∧
    (∀ l, l ∈ (removeStale ws i fuel data (pre ++ suf) pre.length).2 ↔
      l ∈ pre ∨ (l ∈ suf ∧ Writes ws l)) := by
  intro fuel
  induction fuel with
  | zero =>
    intro data pre suf hf
    obtain rfl : suf = [] := List.eq_nil_of_length_eq_zero (by omega)
    simp [removeStale]
  | succ fuel ih =>
    intro data pre suf hf
    cases suf with
    | nil => simp [removeStale]
    | cons x suf =>
      have hx : (pre ++ x :: suf)[pre.length]? = some x := by simp
      by_cases hall : ws.all fun p => p.1 ≠ x
      · have hstale : ¬ Writes ws x := by
          rintro ⟨y, hy⟩
          simpa using List.all_eq_true.mp hall (x, y) hy
        obtain ⟨he, hm⟩ := ih (removeEntry data x i) pre (swapped suf)
          (by rw [length_swapped]; simpa using hf)
        simp only [removeStale, hx, hall, if_true, swapRemove_append]
        refine ⟨fun l j => ?_, fun l => ?_⟩
        · rw [he, entryOf_removeEntry]
          by_cases hlx : l = x
          · subst hlx
            by_cases hj : j = i
            · simp [hj, lastWrite_eq_none.mpr hstale]
            · simp [hj]
          · simp [hlx, mem_swapped]
        · rw [hm, mem_swapped, List.mem_cons]
          constructor
          · rintro (h | ⟨h, hw⟩)
            · exact .inl h
            · exact .inr ⟨.inr h, hw⟩
          · rintro (h | ⟨rfl | h, hw⟩)
            · exact .inl h
            · exact absurd hw hstale
            · exact .inr ⟨h, hw⟩
      · have hkept : Writes ws x := by
          simp only [List.all_eq_true, not_forall, decide_eq_true_eq, ne_eq, not_not,
            exists_prop] at hall
          obtain ⟨⟨a, y⟩, hy, rfl⟩ := hall
          exact ⟨y, hy⟩
        obtain ⟨he, hm⟩ := ih data (pre ++ [x]) suf (by simpa using hf)
        simp only [removeStale, hx, hall, if_false, Bool.false_eq_true]
        rw [show pre ++ x :: suf = pre ++ [x] ++ suf by simp,
          show pre.length + 1 = (pre ++ [x]).length by simp]
        refine ⟨fun l j => ?_, fun l => ?_⟩
        · rw [he]
          by_cases hlx : l = x
          · subst hlx
            simp [lastWrite_eq_none, hkept]
          · simp [hlx]
        · rw [hm, List.mem_append, List.mem_singleton, List.mem_cons]
          constructor
          · rintro ((h | rfl) | ⟨h, hw⟩)
            · exact .inl h
            · exact .inr ⟨.inl rfl, hkept⟩
            · exact .inr ⟨.inr h, hw⟩
          · rintro (h | ⟨rfl | h, hw⟩)
            · exact .inl (.inl h)
            · exact .inl (.inr rfl)
            · exact .inr ⟨h, hw⟩

/-! ## `record` -/

theorem foldl_recordWrite (v : TxVersion) : ∀ (ws : WriteSet L V)
    (data : L → Option (Versions V)) (write : List L) (b : Bool),
    (∀ l j, entryOf (ws.foldl (recordWrite v) (data, write, b)).1 l j =
      if j = v.txIdx then ((lastWrite ws l).map (.data v.txIncarnation)).or (entryOf data l j)
      else entryOf data l j) ∧
    (∀ l, l ∈ (ws.foldl (recordWrite v) (data, write, b)).2.1 ↔ l ∈ write ∨ Writes ws l) ∧
    ((ws.foldl (recordWrite v) (data, write, b)).2.2 = true ↔
      b = true ∨ ∃ l, Writes ws l ∧ l ∉ write)
  | [], data, write, b => by simp [lastWrite, Writes]
  | p :: ws, data, write, b => by
    have hW : ∀ l, Writes (p :: ws) l ↔ l = p.1 ∨ Writes ws l := by
      intro l
      constructor
      · rintro ⟨x, hx⟩
        rcases List.mem_cons.mp hx with h | h
        · exact .inl (by rw [← h])
        · exact .inr ⟨x, h⟩
      · rintro (rfl | ⟨x, hx⟩)
        · exact ⟨p.2, List.mem_cons_self⟩
        · exact ⟨x, List.mem_cons_of_mem _ hx⟩
    have hentry : ∀ l j,
        (if j = v.txIdx then ((lastWrite ws l).map (.data v.txIncarnation)).or
            (entryOf (insertEntry data p.1 v.txIdx (.data v.txIncarnation p.2)) l j)
          else entryOf (insertEntry data p.1 v.txIdx (.data v.txIncarnation p.2)) l j) =
        if j = v.txIdx then ((lastWrite (p :: ws) l).map (.data v.txIncarnation)).or
          (entryOf data l j) else entryOf data l j := by
      intro l j
      rw [entryOf_insertEntry, lastWrite_cons]
      by_cases hj : j = v.txIdx
      · by_cases hl : l = p.1
        · subst hl; cases lastWrite ws p.1 <;> simp [hj]
        · cases lastWrite ws l <;> simp [hj, hl, Ne.symm hl]
      · simp [hj]
    rw [List.foldl_cons]
    by_cases hp : p.1 ∈ write
    · obtain ⟨h1, h2, h3⟩ := foldl_recordWrite v ws
        (insertEntry data p.1 v.txIdx (.data v.txIncarnation p.2)) write b
      have hstep : recordWrite v (data, write, b) p =
          (insertEntry data p.1 v.txIdx (.data v.txIncarnation p.2), write, b) := by
        simp [recordWrite, hp]
      rw [hstep]
      refine ⟨fun l j => by rw [h1, hentry], fun l => ?_, ?_⟩
      · rw [h2, hW]
        constructor
        · rintro (h | h)
          · exact .inl h
          · exact .inr (.inr h)
        · rintro (h | rfl | h)
          · exact .inl h
          · exact .inl hp
          · exact .inr h
      · rw [h3]
        refine or_congr_right ⟨fun ⟨l, hl, hn⟩ => ⟨l, (hW l).mpr (.inr hl), hn⟩, ?_⟩
        rintro ⟨l, hl, hn⟩
        rcases (hW l).mp hl with rfl | hl
        · exact absurd hp hn
        · exact ⟨l, hl, hn⟩
    · obtain ⟨h1, h2, h3⟩ := foldl_recordWrite v ws
        (insertEntry data p.1 v.txIdx (.data v.txIncarnation p.2)) (write ++ [p.1]) true
      have hstep : recordWrite v (data, write, b) p =
          (insertEntry data p.1 v.txIdx (.data v.txIncarnation p.2), write ++ [p.1], true) := by
        simp [recordWrite, hp]
      rw [hstep]
      refine ⟨fun l j => by rw [h1, hentry], fun l => ?_, ?_⟩
      · rw [h2, hW, List.mem_append, List.mem_singleton, or_assoc]
      · rw [h3]
        simp only [true_or, true_iff]
        exact .inr ⟨p.1, (hW p.1).mpr (.inl rfl), hp⟩

/-- What `record` does: the transaction's entries are those of its new write set, the entries of
its previous write set are gone, and everything else is unchanged. -/
structure RecordSpec (m m' : MvMemory L V) (v : TxVersion) (readSet : ReadSet L)
    (ws : WriteSet L V) (wroteNew : Bool) : Prop where
  other : ∀ l j, j ≠ v.txIdx → m'.entry l j = m.entry l j
  own : ∀ l, m'.entry l v.txIdx = ((lastWrite ws l).map (.data v.txIncarnation)).or
    (if l ∈ (m.lastLocations v.txIdx).write then none else m.entry l v.txIdx)
  last_other : ∀ j, j ≠ v.txIdx → m'.lastLocations j = m.lastLocations j
  last_read : (m'.lastLocations v.txIdx).read = readSet
  last_write : ∀ l, l ∈ (m'.lastLocations v.txIdx).write ↔ Writes ws l
  wroteNew : wroteNew = true ↔ ∃ l, Writes ws l ∧ l ∉ (m.lastLocations v.txIdx).write

theorem record_spec (m : MvMemory L V) (v : TxVersion) (rs : ReadSet L) (ws : WriteSet L V) :
    RecordSpec m (m.record v rs ws).1 v rs ws (m.record v rs ws).2 := by
  obtain ⟨hs1, hs2⟩ := removeStale_spec ws v.txIdx (m.lastLocations v.txIdx).write.length m.data []
    (m.lastLocations v.txIdx).write le_rfl
  simp only [List.nil_append, List.length_nil, List.not_mem_nil, false_or] at hs1 hs2
  generalize hst : removeStale ws v.txIdx (m.lastLocations v.txIdx).write.length m.data
    (m.lastLocations v.txIdx).write 0 = st at hs1 hs2
  obtain ⟨hw1, hw2, hw3⟩ := foldl_recordWrite v ws st.1 st.2 false
  have hrec : m.record v rs ws =
      (⟨(ws.foldl (recordWrite v) (st.1, st.2, false)).1, update m.lastLocations v.txIdx
        ⟨rs, (ws.foldl (recordWrite v) (st.1, st.2, false)).2.1⟩⟩,
        (ws.foldl (recordWrite v) (st.1, st.2, false)).2.2) := by
    simp only [record, hst]
  rw [hrec]
  refine ⟨fun l j hj => ?_, fun l => ?_, fun j hj => Function.update_of_ne hj _ _, by simp, ?_, ?_⟩
  · show entryOf _ l j = entryOf m.data l j
    rw [hw1, if_neg hj, hs1, if_neg fun h => hj h.1]
  · show entryOf _ l v.txIdx = _
    rw [hw1, hs1]
    cases hl : lastWrite ws l with
    | some x => simp
    | none => simp [entry, entryOf]
  · intro l
    simp only [Function.update_self]
    show l ∈ (ws.foldl (recordWrite v) (st.1, st.2, false)).2.1 ↔ _
    rw [hw2, hs2]
    exact ⟨fun h => h.elim And.right id, .inr⟩
  · rw [hw3]
    simp only [Bool.false_eq_true, false_or]
    refine exists_congr fun l => and_congr_right fun hl => ?_
    rw [hs2, not_and_or]
    exact ⟨fun h => h.resolve_right (not_not_intro hl), .inl⟩

/-! ## `convert_writes_to_estimates` -/

theorem entryOf_convert (i : TxIdx) : ∀ (ls : List L) (data : L → Option (Versions V)),
    (∀ l ∈ ls, entryOf data l i ≠ none) → ∀ l j,
    entryOf (ls.foldl (fun data location => update data location ((data location).map fun written =>
      update written i (some .estimate))) data) l j =
      if j = i ∧ l ∈ ls then some .estimate else entryOf data l j
  | [], data, _, l, j => by simp
  | x :: ls, data, h, l, j => by
    have hx : ∀ l j, entryOf (update data x ((data x).map fun written =>
        update written i (some .estimate))) l j =
        if j = i ∧ l = x then some .estimate else entryOf data l j := by
      intro l j
      by_cases hl : l = x
      · subst hl
        cases hd : data l with
        | none => exact absurd (by simp [entryOf, hd]) (h l List.mem_cons_self)
        | some written =>
          by_cases hj : j = i
          · subst hj; simp [entryOf]
          · simp [entryOf, hd, hj]
      · simp [entryOf, hl]
    rw [List.foldl_cons, entryOf_convert i ls _ _ l j, hx]
    · by_cases hj : j = i
      · by_cases hl : l = x <;> simp [hj, hl]
      · simp [hj]
    · intro l hl
      rw [hx]
      split
      · simp
      · exact h l (List.mem_cons_of_mem _ hl)

theorem convert_entry (h : ∀ l ∈ (m.lastLocations i).write, m.entry l i ≠ none) (l : L)
    (j : TxIdx) :
    (m.convertWritesToEstimates i).entry l j =
      if j = i ∧ l ∈ (m.lastLocations i).write then some .estimate else m.entry l j :=
  entryOf_convert i (m.lastLocations i).write m.data h l j

/-! ## Origins -/

section Origins

omit [DecidableEq L]

/-- The origin a read of the location would find; none if it would meet an ESTIMATE. -/
def currentOrigin (m : MvMemory L V) (l : L) (i : TxIdx) : Option ReadOrigin :=
  match lastBelow (m.entry l) i with
  | some (j, .data k _) => some (.mvMemory ⟨j, k⟩)
  | some (_, .estimate) => none
  | none => some .storage

theorem entry_of_data {written : Versions V} (h : m.data l = some written) :
    m.entry l = written := by
  funext j
  simp [entry, h]

/-- Validity depends only on the entries below the transaction. -/
theorem currentOrigin_congr {m' : MvMemory L V} (h : ∀ j, j < i → m'.entry l j = m.entry l j) :
    m'.currentOrigin l i = m.currentOrigin l i := by
  simp only [currentOrigin, lastBelow_congr h]

/-- A location whose entries are those of some lower transaction is read from its data. -/
theorem currentOrigin_eq_mvMemory {v : TxVersion} :
    m.currentOrigin l i = some (.mvMemory v) ↔
      ∃ x, lastBelow (m.entry l) i = some (v.txIdx, .data v.txIncarnation x) := by
  unfold currentOrigin
  rcases lastBelow (m.entry l) i with _ | ⟨j, k | _⟩
  · simp
  · obtain ⟨a, b⟩ := v
    simp
  · simp

theorem currentOrigin_eq_storage :
    m.currentOrigin l i = some .storage ↔ lastBelow (m.entry l) i = none := by
  unfold currentOrigin
  rcases lastBelow (m.entry l) i with _ | ⟨j, k | _⟩ <;> simp

/-- A recorded read set is valid exactly when every location would be read from its origin. -/
theorem validateReadLocations_iff (h : (m.lastLocations i).read = readSetOf log) :
    m.validateReadLocations i = true ↔
      ∀ r ∈ log, m.currentOrigin r.location i = some r.origin := by
  simp only [validateReadLocations, h, readSetOf, List.all_map, List.all_eq_true,
    Function.comp_apply]
  refine forall₂_congr fun r _ => ?_
  cases hd : m.data r.location with
  | none =>
    have he : lastBelow (m.entry r.location) i = none :=
      lastBelow_eq_none.mpr fun j _ => by simp [entry, hd]
    simp only [currentOrigin, he, List.length_singleton, List.getLast?_singleton, true_and,
      Option.some.injEq, decide_eq_true_eq]
    exact eq_comm
  | some written =>
    simp only [currentOrigin, entry_of_data hd]
    cases r.origin with
    | storage =>
      rcases hl : lastBelow written i with _ | ⟨j, _ | _⟩ <;> simp [validateOrigins, hl]
    | mvMemory v =>
      rcases hl : lastBelow written i with _ | ⟨j, k | _⟩
      · simp [validateOrigins, hl]
      · simp only [validateOrigins, hl, Option.some.injEq, ReadOrigin.mvMemory.injEq]
        obtain ⟨a, b⟩ := v
        by_cases h1 : j = a <;> by_cases h2 : k = b <;> simp [h1, h2, eq_comm]
      · simp [validateOrigins, hl]

theorem closest_eq (m : MvMemory L V) (l : L) (i : TxIdx) :
    (if i > 0 then (m.data l).bind fun written => lastBelow written i else none) =
      lastBelow (m.entry l) i := by
  cases hd : m.data l with
  | none =>
    have he : lastBelow (m.entry l) i = none :=
      lastBelow_eq_none.mpr fun j _ => by simp [entry, hd]
    simp [he]
  | some written =>
    rw [entry_of_data hd]
    rcases Nat.eq_zero_or_pos i with rfl | hi
    · simp
    · simp [hi]

end Origins

/-! ## Read sets -/

theorem origins_of_mem : ∀ {log : List (Read L V)} {r : Read L V},
    (log.map Read.location).Nodup → r ∈ log →
    (readSetOf log).origins r.location = [r.origin]
  | r' :: log, r, hnd, hr => by
    obtain ⟨h1, h2⟩ := List.nodup_cons.mp hnd
    rcases List.mem_cons.mp hr with rfl | hr
    · simp [readSetOf, ReadSet.origins]
    · have hne : r.location ≠ r'.location := fun he => h1 (he ▸ List.mem_map_of_mem hr)
      have hb : (r.location == r'.location) = false := by simpa using hne
      have ih := origins_of_mem h2 hr
      simp only [readSetOf, ReadSet.origins, List.map_cons, List.lookup_cons, hb] at ih ⊢
      exact ih

theorem origins_of_not_mem (h : ∀ r ∈ log, r.location ≠ l) :
    (readSetOf log).origins l = [] := by
  have hl : (readSetOf log).lookup l = none := by
    rw [List.lookup_eq_none_iff]
    rintro p hp
    obtain ⟨r, hr, rfl⟩ := List.mem_map.mp hp
    simpa using (h r hr).symm
  rw [ReadSet.origins, hl, Option.getD_none]

/-- Noting the origin of a read: a repeated read must find its first origin and changes nothing, a
first read extends the read set. -/
theorem pushOrigin_ok {r : Read L V} {os : List ReadOrigin} (hnd : (log.map Read.location).Nodup)
    (h : ReadSet.pushOrigin ((readSetOf log).origins r.location) r.origin = .ok os) :
    (∃ r' ∈ log, r'.location = r.location ∧ r'.origin = r.origin ∧
      (readSetOf log).setOrigins r.location os = readSetOf log) ∨
    ((∀ r' ∈ log, r'.location ≠ r.location) ∧
      (readSetOf log).setOrigins r.location os = readSetOf (log ++ [r])) := by
  by_cases hex : ∃ r' ∈ log, r'.location = r.location
  · obtain ⟨r', hr', hl⟩ := hex
    rw [← hl, origins_of_mem hnd hr'] at h
    by_cases ho : r'.origin = r.origin
    · simp only [ReadSet.pushOrigin, List.getLast?_singleton, ho, ne_eq, not_true_eq_false,
        if_false, Except.ok.injEq] at h
      refine .inl ⟨r', hr', hl, ho, ?_⟩
      have hany : (readSetOf log).any (fun p => p.1 = r.location) = true := by
        refine List.any_eq_true.mpr ⟨_, List.mem_map_of_mem hr', ?_⟩
        simpa using hl
      rw [ReadSet.setOrigins, if_pos hany, ← h]
      refine (List.map_congr_left fun p hp => ?_).trans (List.map_id _)
      obtain ⟨r'', hr'', rfl⟩ := List.mem_map.mp hp
      by_cases he : r''.location = r.location
      · obtain rfl := List.inj_on_of_nodup_map hnd hr'' hr' (he.trans hl.symm)
        simp [hl, ho]
      · simp [he]
    · simp [ReadSet.pushOrigin, ho] at h
  · have hne : ∀ r' ∈ log, r'.location ≠ r.location := fun r' hr' he => hex ⟨r', hr', he⟩
    rw [origins_of_not_mem hne] at h
    simp only [ReadSet.pushOrigin, List.getLast?_nil, List.nil_append, Except.ok.injEq] at h
    refine .inr ⟨hne, ?_⟩
    have hany : (readSetOf log).any (fun p => p.1 = r.location) = false := by
      rw [List.any_eq_false]
      rintro p hp
      obtain ⟨r', hr', rfl⟩ := List.mem_map.mp hp
      simpa using hne r' hr'
    rw [ReadSet.setOrigins, hany, ← h]
    simp [readSetOf]

/-- A read that succeeds returns what the memory shows, and notes its origin. -/
theorem readStorage_ok {x : V} (hnd : (log.map Read.location).Nodup)
    (h : m.readStorage storage i (readSetOf log) l = .ok (x, readSet)) :
    ∃ r : Read L V, r.location = l ∧ r.value = x ∧ m.Sees storage i r ∧
      ((∃ r' ∈ log, r'.location = l ∧ r'.origin = r.origin ∧ readSet = readSetOf log) ∨
        ((∀ r' ∈ log, r'.location ≠ l) ∧ readSet = readSetOf (log ++ [r]))) := by
  have hok : ∀ r : Read L V, r.location = l → ∀ os,
      ReadSet.pushOrigin ((readSetOf log).origins l) r.origin = .ok os →
      (∃ r' ∈ log, r'.location = l ∧ r'.origin = r.origin ∧
        (readSetOf log).setOrigins l os = readSetOf log) ∨
      ((∀ r' ∈ log, r'.location ≠ l) ∧
        (readSetOf log).setOrigins l os = readSetOf (log ++ [r])) := by
    rintro r rfl os hos
    exact pushOrigin_ok hnd hos
  rw [readStorage, closest_eq] at h
  rcases hc : lastBelow (m.entry l) i with _ | ⟨j, ⟨k, y⟩ | _⟩
  · rw [hc] at h
    cases hp : ReadSet.pushOrigin ((readSetOf log).origins l) .storage with
    | error err => rw [hp] at h; cases h
    | ok os =>
      rw [hp] at h
      cases h
      exact ⟨⟨l, .storage, _⟩, rfl, rfl, ⟨hc, rfl⟩, hok _ rfl os hp⟩
  · rw [hc] at h
    cases hp : ReadSet.pushOrigin ((readSetOf log).origins l) (.mvMemory ⟨j, k⟩) with
    | error err => simp only [hp] at h; cases h
    | ok os =>
      simp only [hp] at h
      cases h
      exact ⟨⟨l, .mvMemory ⟨j, k⟩, _⟩, rfl, rfl, hc, hok _ rfl os hp⟩
  · rw [hc] at h
    cases h

/-- A read that blocks has met the ESTIMATE of a lower transaction. -/
theorem readStorage_blocking {b : TxIdx}
    (h : m.readStorage storage i readSet l = .error (.blockingEstimate b)) : b < i := by
  rw [readStorage, closest_eq] at h
  have hpush : ∀ os o, ReadSet.pushOrigin os o ≠ .error (.blockingEstimate b) := by
    intro os o hp
    unfold ReadSet.pushOrigin at hp
    split at hp
    · split at hp <;> cases hp
    · cases hp
  rcases hc : lastBelow (m.entry l) i with _ | ⟨j, ⟨k, y⟩ | _⟩
  · rw [hc] at h
    cases hp : ReadSet.pushOrigin (readSet.origins l) .storage with
    | error err => simp only [hp] at h; cases h; exact absurd hp (hpush _ _)
    | ok os => simp only [hp] at h; cases h
  · rw [hc] at h
    cases hp : ReadSet.pushOrigin (readSet.origins l) (.mvMemory ⟨j, k⟩) with
    | error err => simp only [hp] at h; cases h; exact absurd hp (hpush _ _)
    | ok os => simp only [hp] at h; cases h
  · rw [hc] at h
    cases h
    exact (lastBelow_eq_some.mp hc).1

end MvMemory

end CongestionControl.Pevm
