import Mathlib.Data.List.Sort
import Mathlib.Tactic

/-!
# Two runs of a program

Two runs are in lockstep if they fail together and otherwise reach related states. A loop over a list
does not depend on the order of the list if its steps commute.
-/

variable {α β γ σ τ : Type*}

namespace Option.Rel

variable {R : σ → τ → Prop} {x : Option σ} {y : Option τ}

theorem bind {S : β → γ → Prop} {f : σ → Option β} {g : τ → Option γ} (h : Option.Rel R x y)
    (hfg : ∀ s t, R s t → Option.Rel S (f s) (g t)) : Option.Rel S (x.bind f) (y.bind g) := by
  cases h with
  | none => exact .none
  | some h => exact hfg _ _ h

theorem foldlM {f : σ → α → Option σ} {g : τ → α → Option τ} {l : List α}
    (hfg : ∀ s t, R s t → ∀ a ∈ l, Option.Rel R (f s a) (g t a)) {s : σ} {t : τ} (h : R s t) :
    Option.Rel R (l.foldlM f s) (l.foldlM g t) := by
  induction l generalizing s t with
  | nil => exact .some h
  | cons a l ih =>
    exact (hfg s t h a List.mem_cons_self).bind fun s' t' h' =>
      ih (fun s t h b hb => hfg s t h b (List.mem_cons_of_mem a hb)) h'

theorem map_eq {f : σ → γ} {g : τ → γ} (h : Option.Rel R x y) (hfg : ∀ s t, R s t → f s = g t) :
    x.map f = y.map g := by
  cases h with
  | none => rfl
  | some h => exact congrArg Option.some (hfg _ _ h)

theorem bind_eq {f : σ → Option γ} {g : τ → Option γ} (h : Option.Rel R x y)
    (hfg : ∀ s t, R s t → f s = g t) : x.bind f = y.bind g := by
  cases h with
  | none => rfl
  | some h => exact hfg _ _ h

end Option.Rel

/-- A loop whose steps commute does not depend on the order of its list. -/
theorem List.Perm.foldlM_option_eq {f : σ → α → Option σ}
    (hcomm : ∀ s a b, ((f s a).bind fun s => f s b) = (f s b).bind fun s => f s a) {l l' : List α}
    (h : l.Perm l') (s : σ) : l.foldlM f s = l'.foldlM f s := by
  induction h generalizing s with
  | nil => rfl
  | cons a _ ih =>
    exact Option.bind_congr fun s' _ => ih s'
  | swap a b l =>
    simp only [List.foldlM_cons, Option.bind_eq_bind]
    rw [← Option.bind_assoc, ← Option.bind_assoc, hcomm]
  | trans _ _ ih ih' => rw [ih, ih']

theorem List.orderedInsert_comm [LinearOrder α] (a b : α) (l : List α) :
    (l.orderedInsert (· ≥ ·) a).orderedInsert (· ≥ ·) b =
      (l.orderedInsert (· ≥ ·) b).orderedInsert (· ≥ ·) a := by
  induction l with
  | nil =>
    rcases lt_trichotomy a b with h | rfl | h
    · simp [h.le, h.not_ge]
    · rfl
    · simp [h.le, h.not_ge]
  | cons c l ih =>
    rw [orderedInsert_cons, orderedInsert_cons]
    by_cases ha : a ≥ c <;> by_cases hb : b ≥ c
    · rw [if_pos ha, if_pos hb]
      rcases lt_trichotomy a b with h | rfl | h
      · simp [h.le, h.not_ge, ha]
      · rfl
      · simp [h.le, h.not_ge, hb]
    · have hab : ¬b ≥ a := fun hba => hb (ge_trans hba ha)
      simp [ha, hb, hab]
    · have hab : ¬a ≥ b := fun hba => ha (ge_trans hba hb)
      simp [ha, hb, hab]
    · simp [ha, hb, ih]
