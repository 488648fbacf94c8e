import CongestionControl.Pevm.Proofs.EngineInvProofs
import CongestionControl.Pevm.Proofs.MemInvProofs

/-!
# Proofs: every step of a worker keeps the invariant of the engine

The steps that read or change the memory, and then all steps together.
-/

namespace CongestionControl.Pevm

open Function (update update_eq_self update_of_ne update_self)
open Transition Scheduler VersionMap MvMemory

variable {L V ω : Type} {rest : Body L V} {records : TxIdx → Record L V} {v : TxVersion}
  {readSet : ReadSet L}

theorem Follows.mono {log log' : List (Read L V)} {body : Body L V} (hsub : log ⊆ log')
    (h : Follows log body rest) : Follows log' body rest := by
  induction h with
  | start => exact .start
  | read _ hr hl ih => exact .read ih (hsub hr) hl

theorem Justified.value_eq {storage : L → V} {m : MvMemory L V} {i : TxIdx} {r r' : Read L V}
    (h : Justified storage m records r') (hs : m.Sees storage i r) (hl : r'.location = r.location)
    (ho : r'.origin = r.origin) :
    r'.value = r.value := by
  unfold Justified at h
  unfold Sees at hs
  rw [ho, hl] at h
  cases hor : r.origin with
  | storage => rw [hor] at h hs; exact h.trans hs.2.symm
  | mvMemory v =>
    rw [hor] at h hs
    exact (h.2 _ (lastBelow_eq_some.mp hs).2.1).symm

/-- What a worker relies on survives a change of the memory that keeps its reads justified. -/
theorem Worker.Sound.transfer {block : Block L V} {m m' : MvMemory L V}
    {records' : TxIdx → Record L V} {l : Worker L V} (h : l.Sound block m records)
    (hj : ∀ r, Justified block.storage m records r → Justified block.storage m' records' r)
    (hp : ∀ v, l.role = .executing v →
      (records' v.txIdx).published = (records v.txIdx).published) :
    l.Sound block m' records' := by
  cases l with
  | running v rest readSet =>
    obtain ⟨hle, log, hrs, hnd, hlog, hfol⟩ := h
    exact ⟨(hp v rfl).symm ▸ hle, log, hrs, hnd, fun r hr => hj r (hlog r hr), hfol⟩
  | blocked v b => exact ⟨(hp v rfl).symm ▸ h.1, h.2⟩
  | _ => trivial

variable [DecidableEq L] [DecidableEq ω] {block : Block L V} {g : Shared L V}
  {threads : ω → Worker L V} {records : TxIdx → Record L V} {w : ω}

section

variable (h : Inv block g threads records)

include h

theorem Inv.read {l : L} {next : V → Body L V} {readSet' : ReadSet L} {x : V}
    (hw : threads w = .running v (.read l next) readSet)
    (hread : g.memory.readStorage block.storage v.txIdx readSet l = .ok (x, readSet')) :
    Inv block g (update threads w (.running v (next x) readSet')) records := by
  have hsound := h.sound w
  rw [hw] at hsound
  obtain ⟨hle, log, rfl, hnd, hlog, hfol⟩ := hsound
  refine h.of_local (by rw [hw]; rfl) (fun j => by rw [hw]; rfl)
    (fun v' hv' => h.bound (by rw [hw]; exact hv')) ⟨hle, ?_⟩
    (fun i _ hp => by rw [hw] at hp; exact hp.elim) (by simp)
  obtain ⟨r, rfl, rfl, hsees, hcases⟩ := readStorage_ok hnd hread
  rcases hcases with ⟨r', hr', hl, ho, rfl⟩ | ⟨hnew, rfl⟩
  · refine ⟨log, rfl, hnd, hlog, ?_⟩
    have hv : r'.value = r.value := (hlog r' hr').value_eq hsees hl ho
    exact hv ▸ hfol.read hr' hl
  · refine ⟨log ++ [r], rfl, ?_, ?_, ?_⟩
    · rw [List.map_append, List.nodup_append]
      refine ⟨hnd, List.nodup_singleton _, ?_⟩
      rintro a ha b hb rfl
      obtain ⟨r', hr', rfl⟩ := List.mem_map.mp ha
      exact hnew r' hr' (List.mem_singleton.mp hb)
    · intro r' hr'
      rcases List.mem_append.mp hr' with hr' | hr'
      · exact hlog r' hr'
      · rw [List.mem_singleton.mp hr']
        exact h.mem.justified_of_sees hsees
    · exact (hfol.mono (List.subset_append_left _ _)).read (List.mem_append_right _ (by simp)) rfl

theorem Inv.retry
    (hw : (∃ rest readSet, threads w = .running v rest readSet) ∨ ∃ b, threads w = .blocked v b) :
    Inv block g (update threads w (Engine.start block (.execution v))) records := by
  have hle : (records v.txIdx).published ≤ v.txIncarnation := by
    have hsound := h.sound w
    rcases hw with ⟨rest, rs, hw⟩ | ⟨b, hw⟩ <;> rw [hw] at hsound <;> exact hsound.1
  have hversion : (threads w).version = some v := by
    rcases hw with ⟨rest, rs, hw⟩ | ⟨b, hw⟩ <;> rw [hw] <;> rfl
  refine h.of_local ?_ (fun j => ?_) (fun v' hv' => ?_) (sound_start hle) (fun i _ hp => ?_)
    (by simp [Engine.start])
  · rcases hw with ⟨rest, rs, hw⟩ | ⟨b, hw⟩ <;> rw [hw] <;> rfl
  · rcases hw with ⟨rest, rs, hw⟩ | ⟨b, hw⟩ <;> rw [hw] <;> rfl
  · cases hv'
    exact h.bound hversion
  · rcases hw with ⟨rest, rs, hw⟩ | ⟨b, hw⟩ <;> rw [hw] at hp <;> exact hp.elim

theorem Inv.meetEstimate {b : TxIdx} (hw : threads w = .running v rest readSet) (hb : b < v.txIdx) :
    Inv block g (update threads w (.blocked v b)) records := by
  have hsound := h.sound w
  rw [hw] at hsound
  exact h.of_local (by rw [hw]; rfl) (fun j => by rw [hw]; rfl)
    (fun v' hv' => h.bound (by rw [hw]; exact hv')) ⟨hsound.1, hb⟩
    (fun i _ hp => by rw [hw] at hp; exact hp.elim) (by simp)

theorem Inv.validate (hw : threads w = .validating v) :
    Inv block g (update threads w (if g.memory.validateReadLocations v.txIdx then
      .finishing v false else .refuted v)) records := by
  have hbound := h.bound (by rw [hw]; rfl)
  split
  · rename_i hvalid
    refine h.of_local (by rw [hw]; rfl) (fun j => by rw [hw]; rfl)
      (fun v' hv' => by cases hv'; exact hbound) trivial (fun i _ hp => ?_) (by simp)
    rw [hw] at hp
    exact .inl ((show v.txIdx = i from hp) ▸ hvalid)
  · refine h.of_local (by rw [hw]; rfl) (fun j => by rw [hw]; rfl)
      (fun v' hv' => by cases hv'; exact hbound) trivial (fun i _ hp => ?_) (by simp)
    rw [hw] at hp
    exact .inr hp

theorem Inv.spare (hw : threads w = .refuted v) (hno : ¬ g.scheduler.Finished v.txIdx) :
    Inv block g (update threads w (.finishing v false)) records := by
  refine h.of_local (by rw [hw]; rfl) (fun j => by rw [hw]; rfl)
    (fun v' hv' => by cases hv'; exact h.bound (by rw [hw]; rfl)) trivial
    (fun i hf hp => ?_) (by simp)
  rw [hw] at hp
  exact absurd ((show v.txIdx = i from hp).symm ▸ hf) hno

end

theorem execFlags_contains (i : TxIdx) (b : Bool) :
    (Engine.execFlags i b).contains .wroteNewLocation = b := by
  cases b <;> by_cases hi : i > 0 <;> simp only [Engine.execFlags, hi, if_true, if_false] <;> decide

section

variable (h : Inv block g threads records)

include h

omit [DecidableEq ω] in
theorem Inv.not_live {v : TxVersion} (hrole : (threads w).role = .executing v)
    (hno : ¬ (threads w).Shows v.txIdx) :
    ¬ Live g.scheduler threads v.txIdx := by
  have hst := h.sched.cycle.life.exec_status hrole
  rintro (hf | ⟨w', hs⟩)
  · rcases hf with hf | hf <;> rw [hst] at hf <;> cases hf
  · cases hw' : threads w' with
    | recorded v' flags =>
      rw [hw'] at hs
      have : w' = w := h.sched.cycle.life.exec_unique (by simp only [hw']; rfl)
        hrole hs
      subst this
      rw [hw'] at hno
      exact hno hs
    | aborting v' =>
      rw [hw'] at hs
      have := h.sched.cycle.life.abort_status (w := w') (by simp only [hw']; rfl)
      rw [show v'.txIdx = v.txIdx from hs, hst] at this
      cases this
    | _ => rw [hw'] at hs; exact hs

theorem Inv.record {ws : WriteSet L V} (hw : threads w = .running v (.done ws) readSet) :
    ∃ records', Inv block { g with memory := (g.memory.record v readSet ws).1 }
      (update threads w (.recorded v
        (Engine.execFlags v.txIdx (g.memory.record v readSet ws).2))) records' := by
  have hsound := h.sound w
  rw [hw] at hsound
  obtain ⟨hle, log, rfl, -, hlog, hfol⟩ := hsound
  have hrole : (threads w).role = .executing v := by rw [hw]; rfl
  have hst := h.sched.cycle.life.exec_status hrole
  have hbound := h.bound (by rw [hw]; rfl)
  have hnlive := h.not_live hrole (by rw [hw]; exact id)
  have hspec := record_spec g.memory v (readSetOf log) ws
  have hlive : ∀ j, Live g.scheduler (update threads w (.recorded v
      (Engine.execFlags v.txIdx (g.memory.record v (readSetOf log) ws).2))) j ↔
      Live g.scheduler threads j ∨ j = v.txIdx := by
    intro j
    unfold Live
    rw [exists_update, exists_split w, hw]
    constructor
    · rintro (hf | hs | ho)
      · exact .inl (.inl hf)
      · exact .inr (Eq.symm hs)
      · exact .inl (.inr (.inr ho))
    · rintro ((hf | hs | ho) | rfl)
      · exact .inl hf
      · exact hs.elim
      · exact .inr (.inr ho)
      · exact .inr (.inl rfl)
  refine ⟨recorded records v log ws, ?_⟩
  exact
    { running := h.running
      sched := by
        rw [map_update Worker.role, show (Worker.recorded v (Engine.execFlags v.txIdx
          (g.memory.record v (readSetOf log) ws).2) : Worker L V).role =
          (fun w => (threads w).role) w from hrole.symm, update_eq_self]
        exact h.sched
      mem := h.mem.record hspec hle hlog hfol hlive
      published_le := by
        intro j
        by_cases hj : j = v.txIdx
        · subst hj
          simp only [recorded, update_self, hst]
          exact le_rfl
        · rw [recorded, update_of_ne hj]
          exact h.published_le j
      published_ready := by
        intro j hr
        have hj : j ≠ v.txIdx := by rintro rfl; rw [hst] at hr; cases hr
        rw [recorded, update_of_ne hj]
        exact h.published_ready hr
      outside := by
        intro j hj
        have hne : j ≠ v.txIdx := fun he => Nat.not_le.mpr hbound (he ▸ hj)
        rw [recorded, update_of_ne hne]
        exact h.outside hj
      bound := by
        intro w' v' hv'
        by_cases hw' : w' = w
        · subst hw'
          rw [update_self] at hv'
          cases hv'
          exact hbound
        · rw [update_of_ne hw'] at hv'
          exact h.bound hv'
      sound := by
        intro w'
        by_cases hw' : w' = w
        · subst hw'; rw [update_self]; exact trivial
        rw [update_of_ne hw']
        refine (h.sound w').transfer (fun r hr => h.mem.record_justified hspec hle hr) ?_
        intro v' hv'
        have hne : v'.txIdx ≠ v.txIdx :=
          fun he => hw' (h.sched.cycle.life.exec_unique hv' hrole he)
        rw [recorded, update_of_ne hne]
      valid := by
        intro i hi hf
        have hne : i ≠ v.txIdx := by
          rintro rfl; rcases hf with hf | hf <;> rw [hst] at hf <;> cases hf
        rcases h.valid hi hf with hv | hv | hv
        · rcases h.mem.valid_record hnlive hspec hne hv with hnew | hv
          · refine .inr (.inr (exists_update.mpr (.inl ⟨?_, hnew.2⟩)))
            rw [execFlags_contains]
            exact hnew.1
          · exact .inl hv
        · exact .inr (.inl hv)
        · refine .inr (.inr (exists_update.mpr (.inr ?_)))
          rw [exists_split w, hw] at hv
          exact hv.resolve_left id
      done := by
        intro hall
        have := hall w
        rw [update_self] at this
        cases this }

theorem Inv.convert (hw : threads w = .aborting v) :
    Inv block { g with memory := g.memory.convertWritesToEstimates v.txIdx }
      (update threads w (.finishing v true)) records := by
  have hrole : (threads w).role = .aborting v.txIdx := by rw [hw]; rfl
  have hst := h.sched.cycle.life.abort_status hrole
  have hbound := h.bound (by rw [hw]; rfl)
  have hvlive : Live g.scheduler threads v.txIdx := .inr ⟨w, by rw [hw]; rfl⟩
  -- Nobody else shows the writes of the transaction.
  have hother : ¬ ∃ w', w' ≠ w ∧ (threads w').Shows v.txIdx := by
    rintro ⟨w', hne, hs⟩
    cases hw' : threads w' with
    | recorded v' flags =>
      rw [hw'] at hs
      have := h.sched.cycle.life.exec_status (w := w') (by simp only [hw']; rfl)
      rw [show v'.txIdx = v.txIdx from hs] at this
      rw [this] at hst
      cases hst
    | aborting v' =>
      rw [hw'] at hs
      refine hne (h.sched.cycle.life.abort_unique ?_ hrole)
      simp only [hw']
      exact congrArg Role.aborting hs
    | _ => rw [hw'] at hs; exact hs
  have hlive : ∀ j, Live g.scheduler (update threads w (.finishing v true)) j ↔
      Live g.scheduler threads j ∧ j ≠ v.txIdx := by
    intro j
    unfold Live
    rw [exists_update, exists_split w, hw]
    constructor
    · rintro (hf | hs | ho)
      · refine ⟨.inl hf, ?_⟩
        rintro rfl; rcases hf with hf | hf <;> rw [hst] at hf <;> cases hf
      · exact hs.elim
      · exact ⟨.inr (.inr ho), by rintro rfl; exact hother ho⟩
    · rintro ⟨hf | hs | ho, hne⟩
      · exact .inl hf
      · exact absurd (Eq.symm hs) hne
      · exact .inr (.inr ho)
  exact
    { running := h.running
      sched := by
        rw [map_update Worker.role, show (Worker.finishing v true : Worker L V).role =
          (fun w => (threads w).role) w from hrole.symm, update_eq_self]
        exact h.sched
      mem := h.mem.convert hvlive hlive
      published_le := h.published_le
      published_ready := h.published_ready
      outside := h.outside
      bound := by
        intro w' v' hv'
        by_cases hw' : w' = w
        · subst hw'
          rw [update_self] at hv'
          cases hv'
          exact hbound
        · rw [update_of_ne hw'] at hv'
          exact h.bound hv'
      sound := by
        intro w'
        by_cases hw' : w' = w
        · subst hw'; rw [update_self]; exact trivial
        rw [update_of_ne hw']
        exact (h.sound w').transfer (fun r hr => h.mem.convert_justified hvlive hr) fun _ _ => rfl
      valid := by
        intro i hi hf
        by_cases hlt : v.txIdx < i
        · exact .inr (.inr (exists_update.mpr (.inl hlt)))
        rcases h.valid hi hf with hv | hv | hv
        · exact .inl (h.mem.valid_convert hvlive (Nat.not_lt.mp hlt) hv)
        · exact .inr (.inl hv)
        · refine .inr (.inr (exists_update.mpr (.inr ?_)))
          rw [exists_split w, hw] at hv
          exact hv.resolve_left id
      done := by
        intro hall
        have := hall w
        rw [update_self] at this
        cases this }

end

omit [DecidableEq ω] in
theorem Inv.init [Nonempty ω] (block : Block L V) :
    Inv block (Engine.program block).shared (fun _ : ω => (Engine.program block).start)
      fun _ => ⟨0, [], []⟩ := by
  have hnf : ∀ i, ¬ (Scheduler.new block.txs.length).Finished i := by
    rintro i (h | h) <;> cases h
  have hnlive : ∀ i, ¬ Live (Scheduler.new block.txs.length)
      (fun _ : ω => (Engine.program block).start) i := by
    rintro i (h | ⟨w, h⟩)
    · exact hnf i h
    · exact h
  exact
    { running := rfl
      sched := SchedInv.new _ fun _ => rfl
      mem :=
        { read := fun _ => rfl
          write := fun j l => by simp [Engine.program, MvMemory.new, Writes]
          shown := fun hj => absurd hj (hnlive _)
          hidden := fun _ l => rfl
          justified := fun hr => by cases hr
          follows := fun hj => absurd hj (hnlive _) }
      published_le := fun j => Nat.zero_le _
      published_ready := fun _ => Nat.zero_le _
      outside := fun _ => rfl
      bound := fun hv => by cases hv
      sound := fun _ => trivial
      valid := fun _ hf => absurd hf (hnf _)
      done := fun hall => by
        obtain ⟨w⟩ := ‹Nonempty ω›
        cases hall w }

omit [DecidableEq L] [DecidableEq ω] in
theorem continueWith_running (hab : g.abortReason = false) (s : Scheduler) (task : Option Task) :
    Engine.continueWith block { g with scheduler := s } task =
      ({ g with scheduler := s }, nextWorker block task) := by
  cases task <;> simp [Engine.continueWith, hab, nextWorker]

/-- Every step of a worker keeps the invariant, unless it stops the block. -/
theorem Inv.step (h : Inv block g threads records) (hab : g.abortReason = false) {fuel : Nat}
    {g' : Shared L V} {l : Worker L V}
    (hex : Engine.exec block g (threads w) fuel = some (g', l)) (hab' : g'.abortReason = false) :
    ∃ records', Inv block g' (update threads w l) records' := by
  cases hw : threads w with
  | polling =>
    have hp := nextTask_spec fuel h.running
    rw [hw] at hex
    simp only [Engine.exec] at hex
    rcases hn : g.scheduler.nextTask fuel with ⟨s, _ | _ | task⟩
    all_goals
      rw [hn] at hex hp
      cases hex
      exact ⟨records, h.poll hw hp⟩
  | left =>
    rw [hw] at hex
    cases hex
  | running v rest readSet =>
    rw [hw] at hex
    cases rest with
    | read location next =>
      simp only [Engine.exec] at hex
      rcases hr : g.memory.readStorage block.storage v.txIdx readSet location with
        (b | _) | ⟨x, readSet'⟩
      · rw [hr] at hex
        cases hex
        exact ⟨records, h.meetEstimate hw (readStorage_blocking hr)⟩
      · rw [hr] at hex
        simp only [hab, Bool.false_eq_true, if_false] at hex
        cases hex
        exact ⟨records, h.retry (.inl ⟨_, _, hw⟩)⟩
      · rw [hr] at hex
        cases hex
        exact ⟨records, h.read hw hr⟩
    | done ws =>
      cases hex
      exact h.record hw
    | fail =>
      cases hex
      cases hab'
  | blocked v b =>
    rw [hw] at hex
    simp only [Engine.exec] at hex
    rcases addDependency_cases g.scheduler v.txIdx b with ⟨h1, h2, hd⟩ | hd
    · rw [hd] at hex
      simp only [continueWith_running hab] at hex
      cases hex
      exact ⟨records, h.wait hw (not_or.mpr ⟨h1, h2⟩)⟩
    · rw [hd] at hex
      simp only at hex
      rw [if_neg (by simp [hab])] at hex
      cases hex
      exact ⟨records, h.retry (.inr ⟨_, hw⟩)⟩
  | recorded v flags =>
    rw [hw] at hex
    have hself : v.txIdx ∉ g.scheduler.transactionsDependents v.txIdx :=
      fun hd => Nat.lt_irrefl _ (h.sched.dep_lt hd).1
    have hn : v.txIdx < g.scheduler.blockSize := by
      rw [h.sched.blockSize]; exact h.bound (by rw [hw]; rfl)
    have hf := finishExecution_spec flags hn (h.sched.cycle.life.dep_nodup _) hself
    simp only [Engine.exec, continueWith_running hab] at hex
    cases hex
    exact ⟨records, h.finish hw hf⟩
  | validating v =>
    rw [hw] at hex
    have hv := h.validate hw
    simp only [Engine.exec] at hex
    split at hex
    · rename_i hc
      rw [if_pos hc] at hv
      cases hex
      exact ⟨records, hv⟩
    · rename_i hc
      rw [if_neg hc] at hv
      cases hex
      exact ⟨records, hv⟩
  | refuted v =>
    rw [hw] at hex
    simp only [Engine.exec] at hex
    rcases tryValidationAbort_cases g.scheduler v with ⟨hx, ht⟩ | ⟨hx, ht⟩ | ⟨h1, h2, ht⟩
    · rw [ht] at hex
      cases hex
      exact ⟨records, h.abort hw (.inl ⟨hx, rfl⟩)⟩
    · rw [ht] at hex
      cases hex
      exact ⟨records, h.abort hw (.inr ⟨hx, rfl⟩)⟩
    · rw [ht] at hex
      cases hex
      exact ⟨records, h.spare hw (not_or.mpr ⟨h1, h2⟩)⟩
  | aborting v =>
    rw [hw] at hex
    cases hex
    exact ⟨records, h.convert hw⟩
  | finishing v aborted =>
    rw [hw] at hex
    simp only [Engine.exec, continueWith_running hab] at hex
    have hn : v.txIdx < g.scheduler.blockSize := by
      rw [h.sched.blockSize]; exact h.bound (by rw [hw]; rfl)
    cases aborted with
    | true =>
      rcases finishValidation_aborted g.scheduler v hn with ⟨-, hf⟩ | ⟨he, hf⟩
      · rw [hf] at hex
        cases hex
        exact ⟨records, h.reissue hw⟩
      · rw [hf] at hex
        cases hex
        exact ⟨records, h.release hw he⟩
    | false =>
      rcases finishValidation_passed g.scheduler v with ⟨hx, hf⟩ | ⟨-, hf⟩
      · rw [hf] at hex
        cases hex
        exact ⟨records, h.confirm hw hx⟩
      · rw [hf] at hex
        cases hex
        exact ⟨records, h.of_local (by rw [hw]; rfl) (fun j => by rw [hw]; rfl)
          (fun v' hv' => by cases hv') trivial (fun i _ hp => by rw [hw] at hp; exact hp.elim)
          (by simp [nextWorker])⟩

end CongestionControl.Pevm
