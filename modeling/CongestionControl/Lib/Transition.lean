import Mathlib.Tactic
import Mathlib.Data.Nat.Count

/-!
# Transition systems of interleaved threads

A `System` is a deterministic machine driven by labels, which carry every choice that the state does
not determine; `Reach S ok` are the states reachable by steps that satisfy `ok`. A `Program` is the
code of one thread, and `Program.system` interleaves a family of threads.
-/

namespace Transition

structure System (σ α : Type*) where
  init : σ
  next : σ → α → Option σ

variable {σ α : Type*} {S : System σ α} {ok : σ → α → Prop} {check : σ → α → Bool} {p : Nat → Prop}
  {n : Nat}

inductive Reach (S : System σ α) (ok : σ → α → Prop) : σ → Prop
  | init : Reach S ok S.init
  | step {s s' : σ} {a : α} : Reach S ok s → ok s a → S.next s a = some s' → Reach S ok s'

abbrev Reachable (S : System σ α) : σ → Prop := Reach S fun _ _ => True

def System.run (S : System σ α) (check : σ → α → Bool) : σ → List α → Option σ
  | s, [] => some s
  | s, a :: rest => if check s a then (S.next s a).bind fun s' => S.run check s' rest else none

/-- A predicate that holds initially and is preserved by the permitted steps holds in every state
they reach. -/
theorem Reach.invariant {I : σ → Prop} (h0 : I S.init)
    (hstep : ∀ s a s', I s → ok s a → S.next s a = some s' → I s') {s : σ} (h : Reach S ok s) :
    I s := by
  induction h with
  | init => exact h0
  | step _ hok hs ih => exact hstep _ _ _ ih hok hs

theorem reach_of_run_from (hok : ∀ s a, check s a = true → ok s a) :
    ∀ {l : List α} {s s' : σ}, Reach S ok s →
    S.run check s l = some s' → Reach S ok s'
  | [], s, s', hs, h => by
    simp only [System.run, Option.some.injEq] at h
    exact h ▸ hs
  | a :: rest, s, s', hs, h => by
    simp only [System.run] at h
    split at h
    · rename_i hc
      obtain ⟨s1, h1, h2⟩ := Option.bind_eq_some_iff.mp h
      exact reach_of_run_from hok (.step hs (hok s a hc) h1) h2
    · cases h

/-- Replaying a list of labels from the initial state ends in a state reachable by steps that pass
the check; the test `p` is evaluated there. -/
theorem exists_reach_of_run (hok : ∀ s a, check s a = true → ok s a) (l : List α) {p : σ → Bool}
    (h : (S.run check S.init l).map p = some true) : ∃ s, Reach S ok s ∧ p s = true := by
  obtain ⟨s, hs, hp⟩ := Option.map_eq_some_iff.mp h
  exact ⟨s, reach_of_run_from hok .init hs, hp⟩

theorem exists_reachable_of_run (l : List α) {p : σ → Bool}
    (h : (S.run (fun _ _ => true) S.init l).map p = some true) : ∃ s, Reachable S s ∧ p s = true :=
  exists_reach_of_run (fun _ _ _ => trivial) l h

structure Program (σ τ χ : Type*) where
  shared : σ
  start : τ
  exec : σ → τ → χ → Option (σ × τ)

structure Config (σ τ ω : Type*) where
  shared : σ
  threads : ω → τ

variable {τ χ ω : Type*} {P : Program σ τ χ} {c : Config σ τ ω}

def Program.system (P : Program σ τ χ) (ω : Type*) [DecidableEq ω] :
    System (Config σ τ ω) (ω × χ) where
  init := ⟨P.shared, fun _ => P.start⟩
  next c a := (P.exec c.shared (c.threads a.1) a.2).map fun r =>
    ⟨r.1, Function.update c.threads a.1 r.2⟩

theorem Program.next_eq_some [DecidableEq ω] {c' : Config σ τ ω} {w : ω} {x : χ} :
    (P.system ω).next c (w, x) = some c' ↔
      ∃ s l, P.exec c.shared (c.threads w) x = some (s, l) ∧
        c' = ⟨s, Function.update c.threads w l⟩ := by
  simp only [Program.system, Option.map_eq_some_iff, Prod.exists]
  constructor
  · rintro ⟨s, l, h, rfl⟩; exact ⟨s, l, h, rfl⟩
  · rintro ⟨s, l, h, rfl⟩; exact ⟨s, l, h, rfl⟩

/-- The induction rule for interleaved threads: it is enough to look at the step of one thread. -/
theorem Program.invariant [DecidableEq ω] {ok : Config σ τ ω → ω × χ → Prop}
    {I : σ → (ω → τ) → Prop} (h0 : I P.shared fun _ => P.start)
    (hstep : ∀ s t w x s' l, I s t → ok ⟨s, t⟩ (w, x) → P.exec s (t w) x = some (s', l) →
      I s' (Function.update t w l)) (h : Reach (P.system ω) ok c) : I c.shared c.threads := by
  refine Reach.invariant (I := fun c => I c.shared c.threads) h0 ?_ h
  rintro ⟨s, t⟩ ⟨w, x⟩ c' hI hok hn
  obtain ⟨s', l, hex, rfl⟩ := Program.next_eq_some.mp hn
  exact hstep s t w x s' l hI hok hex

section Move

variable [DecidableEq ω] {threads : ω → τ} {w : ω} {l : τ}

theorem exists_update {P : τ → Prop} :
    (∃ w', P (Function.update threads w l w')) ↔ P l ∨ ∃ w', w' ≠ w ∧ P (threads w') := by
  constructor
  · rintro ⟨w', h⟩
    by_cases hw : w' = w
    · subst hw; exact .inl (by simpa using h)
    · exact .inr ⟨w', hw, by rwa [Function.update_of_ne hw] at h⟩
  · rintro (h | ⟨w', hw, h⟩)
    · exact ⟨w, by simpa using h⟩
    · exact ⟨w', by rwa [Function.update_of_ne hw]⟩

theorem exists_split {P : τ → Prop} (w : ω) :
    (∃ w', P (threads w')) ↔ P (threads w) ∨ ∃ w', w' ≠ w ∧ P (threads w') := by
  constructor
  · rintro ⟨w', h⟩
    by_cases hw : w' = w
    · subst hw; exact .inl h
    · exact .inr ⟨w', hw, h⟩
  · rintro (h | ⟨w', -, h⟩)
    · exact ⟨w, h⟩
    · exact ⟨w', h⟩

theorem forall_update {P : ω → τ → Prop} (hl : P w l) (h : ∀ w', P w' (threads w')) (w' : ω) :
    P w' (Function.update threads w l w') := by
  by_cases hw : w' = w
  · subst hw; simpa using hl
  · rw [Function.update_of_ne hw]; exact h w'

theorem map_update {ρ : Type*} (f : τ → ρ) (w : ω) (l : τ) :
    (fun w' => f (Function.update threads w l w')) =
      Function.update (fun w' => f (threads w')) w (f l) := by
  funext w'
  by_cases hw : w' = w
  · subst hw; simp
  · simp [hw]

end Move

/-- The rule for a loop over a list: the invariant speaks of the elements that are still to come. -/
theorem foldl_rest {ι β : Type*} {I : List ι → β → Prop} {f : β → ι → β}
    (hstep : ∀ a rest b, I (a :: rest) b → I rest (f b a)) :
    ∀ {l : List ι} {b : β}, I l b → I [] (l.foldl f b)
  | [], _, h => h
  | a :: rest, b, h => foldl_rest (l := rest) hstep (hstep a rest b h)

/-- The rule for a loop whose passes can fail: if none of them does, the loop does not. -/
theorem foldlM_rest {ι β : Type*} {I : List ι → β → Prop} {f : β → ι → Option β}
    (hstep : ∀ a rest b, I (a :: rest) b → ∃ b', f b a = some b' ∧ I rest b') :
    ∀ {l : List ι} {b : β}, I l b → ∃ b', l.foldlM f b = some b' ∧ I [] b'
  | [], b, h => ⟨b, rfl, h⟩
  | a :: rest, b, h => by
    obtain ⟨b', hb, h'⟩ := hstep a rest b h
    obtain ⟨b'', hb', h''⟩ := foldlM_rest (l := rest) hstep h'
    exact ⟨b'', by rw [List.foldlM_cons, hb]; exact hb', h''⟩

theorem mapM_forall₂ {ι β : Type} {R : ι → β → Prop} {f : ι → Option β} :
    ∀ {l : List ι}, (∀ a ∈ l, ∃ b, f a = some b ∧ R a b) →
    ∃ bs, l.mapM f = some bs ∧ List.Forall₂ R l bs
  | [], _ => ⟨[], rfl, .nil⟩
  | a :: rest, h => by
    obtain ⟨b, hb, hR⟩ := h a List.mem_cons_self
    obtain ⟨bs, hbs, hRs⟩ := mapM_forall₂ (l := rest) fun a' ha => h a' (List.mem_cons_of_mem a ha)
    exact ⟨b :: bs, by simp [List.mapM_cons, hb, hbs], .cons hR hRs⟩

theorem count_congr {q : Nat → Prop} [DecidablePred p] [DecidablePred q]
    (h : ∀ i, i < n → (p i ↔ q i)) : Nat.count p n = Nat.count q n := by
  simp only [Nat.count_eq_card_filter_range]
  congr 1
  ext i
  simp only [Finset.mem_filter, Finset.mem_range]
  exact and_congr_right fun hi => h i hi

theorem count_eq_zero [DecidablePred p] (h : ∀ i, i < n → ¬ p i) :
    Nat.count p n = 0 := by
  rw [Nat.count_eq_card_filter_range, Finset.card_eq_zero]
  exact Finset.filter_false_of_mem fun i hi => h i (Finset.mem_range.mp hi)

theorem count_gain {q : Nat → Prop} [DecidablePred p] [DecidablePred q] {i : Nat} (hi : i < n)
    (hp : ¬ p i) (hq : q i) (h : ∀ j, j ≠ i → (p j ↔ q j)) :
    Nat.count q n = Nat.count p n + 1 := by
  simp only [Nat.count_eq_card_filter_range]
  have hins : Finset.filter q (Finset.range n) = insert i (Finset.filter p (Finset.range n)) := by
    ext j
    by_cases hj : j = i
    · subst hj; simp [hi, hq]
    · simp [hj, h j hj]
  rw [hins, Finset.card_insert_of_notMem (by simp [hp])]

theorem of_le_count [DecidablePred p] (h : n ≤ Nat.count p n) :
    ∀ i, i < n → p i := by
  intro i hi
  by_contra hp
  have hlt : Nat.count p n < n := by
    rw [Nat.count_eq_card_filter_range]
    calc (Finset.filter p (Finset.range n)).card
        < (Finset.range n).card := Finset.card_lt_card (Finset.filter_ssubset.mpr
          ⟨i, Finset.mem_range.mpr hi, hp⟩)
      _ = n := Finset.card_range n
  omega

end Transition
