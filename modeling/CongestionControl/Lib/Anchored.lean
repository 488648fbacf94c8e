import Mathlib.Data.List.TakeWhile

/-!
# Anchored decisions

A sequence of slots is decided from the last one down: by a direct rule or, where that says nothing, by
the anchor, the first slot far enough behind that is not skipped. If anchors never contradict a direct
rule, an observer that knows more decides the same.
-/

namespace Anchored

inductive Verdict (β : Type*)
  | commit (b : β)
  | skip
  | undecided

def Verdict.isDecided {β : Type*} : Verdict β → Bool
  | .commit _ => true
  | .skip => true
  | .undecided => false

def decidedPart {σ β : Type*} (l : List (σ × Verdict β)) : List (σ × Verdict β) :=
  l.takeWhile fun p => p.2.isDecided

theorem isDecided_of_mem_decidedPart {σ β : Type*} {l : List (σ × Verdict β)} {q : σ × Verdict β}
    (hq : q ∈ decidedPart l) : q.2.isDecided = true :=
  List.mem_takeWhile_imp (p := fun q : σ × Verdict β => q.2.isDecided) hq

variable {σ β : Type*} (far : σ → σ → Prop) [DecidableRel far] (fromAnchor : β → σ → Verdict β)

def anchor (s : σ) : List (σ × Verdict β) → Option β
  | [] => none
  | (t, .commit b) :: later => if far s t then some b else anchor s later
  | (_, .skip) :: later => anchor s later
  | (t, .undecided) :: later => if far s t then none else anchor s later

def indirect (s : σ) (later : List (σ × Verdict β)) : Verdict β :=
  match anchor far s later with
  | some b => fromAnchor b s
  | none => .undecided

def verdict (direct : σ → Verdict β) (s : σ) (later : List (σ × Verdict β)) : Verdict β :=
  match direct s with
  | .commit b => .commit b
  | .skip => .skip
  | .undecided => indirect far fromAnchor s later

def run (direct : σ → Verdict β) : List σ → List (σ × Verdict β)
  | [] => []
  | s :: slots => (s, verdict far fromAnchor direct s (run direct slots)) :: run direct slots

inductive Extends : List (σ × Verdict β) → List (σ × Verdict β) → Prop
  | nil (l : List (σ × Verdict β)) : Extends [] l
  | cons {s : σ} {v v' : Verdict β} {l l' : List (σ × Verdict β)}
      (head : v ≠ .undecided → v' = v) (tail : Extends l l') : Extends ((s, v) :: l) ((s, v') :: l')

variable {far fromAnchor} {direct direct' : σ → Verdict β} {l l' : List (σ × Verdict β)} {s : σ}

theorem Extends.anchor_eq (h : Extends l l') {b : β} (hb : anchor far s l = some b) :
    anchor far s l' = some b := by
  induction h with
  | nil => cases hb
  | @cons t v v' l l' head tail ih =>
    cases v with
    | commit c =>
      rw [head (by simp), anchor]
      rw [anchor] at hb
      split_ifs at hb ⊢
      · exact hb
      · exact ih hb
    | skip =>
      rw [head (by simp)]
      exact ih hb
    | undecided =>
      rw [anchor] at hb
      split_ifs at hb with hfar
      cases v' <;> simp only [anchor, hfar, if_false] <;> exact ih hb

theorem anchor_mem {b : β} (hb : anchor far s l = some b) :
    ∃ t, far s t ∧ (t, Verdict.commit b) ∈ l := by
  induction l with
  | nil => cases hb
  | cons x l ih =>
    have hlater : anchor far s l = some b → ∃ t, far s t ∧ (t, Verdict.commit b) ∈ x :: l := by
      intro hb
      obtain ⟨t, ht, hmem⟩ := ih hb
      exact ⟨t, ht, List.mem_cons_of_mem _ hmem⟩
    obtain ⟨t, v⟩ := x
    cases v with
    | commit c =>
      rw [anchor] at hb
      split_ifs at hb with hfar
      · cases hb
        exact ⟨t, hfar, List.mem_cons_self⟩
      · exact hlater hb
    | skip => exact hlater hb
    | undecided =>
      rw [anchor] at hb
      split_ifs at hb
      exact hlater hb

theorem Extends.decidedPart_extends (h : Extends l l') : decidedPart l <+: decidedPart l' := by
  induction h with
  | nil => exact List.nil_prefix
  | @cons s v v' l l' head tail ih =>
    cases v with
    | undecided => exact List.nil_prefix
    | commit b =>
      rw [head (by simp)]
      exact List.prefix_cons_inj _ |>.mpr ih
    | skip =>
      rw [head (by simp)]
      exact List.prefix_cons_inj _ |>.mpr ih

@[simp] theorem map_fst_run (slots : List σ) :
    (run far fromAnchor direct slots).map Prod.fst = slots := by
  induction slots with
  | nil => rfl
  | cons s slots ih => rw [run, List.map_cons, ih]

theorem run_append (slots later : List σ) :
    ∃ l, run far fromAnchor direct (slots ++ later) = l ++ run far fromAnchor direct later ∧
      l.map Prod.fst = slots := by
  induction slots with
  | nil => exact ⟨[], rfl, rfl⟩
  | cons s slots ih =>
    obtain ⟨l, hl, hfst⟩ := ih
    refine ⟨(s, verdict far fromAnchor direct s (l ++ run far fromAnchor direct later)) :: l, ?_, ?_⟩
    · rw [List.cons_append, run, hl, List.cons_append]
    · rw [List.map_cons, hfst]

section Stability

variable (Commits : σ → β → Prop)

theorem commits_of_mem_run (hdirect : ∀ s b, direct s = .commit b → Commits s b)
    (hanchor : ∀ s t a b, far s t → Commits t a → fromAnchor a s = .commit b → Commits s b)
    {slots : List σ} {b : β} (h : (s, Verdict.commit b) ∈ run far fromAnchor direct slots) :
    Commits s b := by
  induction slots generalizing s b with
  | nil => cases h
  | cons t slots ih =>
    rcases List.mem_cons.mp h with heq | h
    · obtain ⟨rfl, hv⟩ := Prod.mk.inj heq
      unfold verdict at hv
      split at hv
      · rename_i c hc
        cases hv
        exact hdirect _ _ hc
      · cases hv
      · unfold indirect at hv
        split at hv
        · rename_i a ha
          obtain ⟨t, hfar, hmem⟩ := anchor_mem ha
          exact hanchor s t a b hfar (ih hmem) hv.symm
        · cases hv
    · exact ih h

/-- Decisions are stable: an observer whose direct rule knows more, and whose slots go further, makes
the same decisions. -/
theorem run_extends (hdirect : ∀ s b, direct' s = .commit b → Commits s b)
    (hanchor : ∀ s t a b, far s t → Commits t a → fromAnchor a s = .commit b → Commits s b)
    (hmono : ∀ s, direct s ≠ .undecided → direct' s = direct s)
    (hagree : ∀ s t a, far s t → Commits t a → direct' s ≠ .undecided → fromAnchor a s = direct' s)
    (slots later : List σ) :
    Extends (run far fromAnchor direct slots) (run far fromAnchor direct' (slots ++ later)) := by
  induction slots with
  | nil => exact .nil _
  | cons s slots ih =>
    refine .cons (fun hv => ?_) ih
    cases hd : direct s with
    | commit b =>
      have hd' := (hmono s (by simp [hd])).trans hd
      simp only [verdict, hd, hd']
    | skip =>
      have hd' := (hmono s (by simp [hd])).trans hd
      simp only [verdict, hd, hd']
    | undecided =>
      simp only [verdict, hd, indirect] at hv ⊢
      cases ha : anchor far s (run far fromAnchor direct slots) with
      | none => simp only [ha] at hv; exact absurd rfl hv
      | some a =>
        have ha' := ih.anchor_eq ha
        obtain ⟨t, hfar, hmem⟩ := anchor_mem ha'
        have hcommit := commits_of_mem_run Commits hdirect hanchor hmem
        -- The other observer may know the slot directly: its anchor does not contradict that.
        cases hd' : direct' s with
        | commit b => exact ((hagree s t a hfar hcommit (by simp [hd'])).trans hd').symm
        | skip => exact ((hagree s t a hfar hcommit (by simp [hd'])).trans hd').symm
        | undecided => simp only [List.append_eq, ha']

end Stability

end Anchored
