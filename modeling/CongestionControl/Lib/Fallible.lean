import Mathlib.Data.List.Forall2

/-!
# Computations that may fail

A test is a computation in `Option`: `none` is a failure that ends the program. `Computes o P` says
that the test does not fail and that its answer is the truth of `P`.
-/

variable {ε α β : Type}

theorem Except.bind_eq_ok_iff {x : Except ε α} {f : α → Except ε β} {b : β} :
    x >>= f = .ok b ↔ ∃ a, x = .ok a ∧ f a = .ok b := by
  cases x with
  | error => exact ⟨nofun, nofun⟩
  | ok a => exact ⟨fun h => ⟨a, rfl, h⟩, fun ⟨_, ha, h⟩ => by cases ha; exact h⟩

theorem Except.ite_throw_eq_ok_iff {p : Prop} [Decidable p] {e : ε} {x : Except ε α} {a : α} :
    (if p then throw e else x) = .ok a ↔ ¬ p ∧ x = .ok a := by
  split_ifs with hp
  · exact iff_of_false nofun fun h => h.1 hp
  · exact (and_iff_right hp).symm

theorem Except.ite_pure_eq_ok_iff {p : Prop} [Decidable p] {e : ε} {a : α} :
    (if p then pure a else throw e : Except ε α) = .ok a ↔ p := by
  split_ifs with hp
  · exact iff_of_true rfl hp
  · exact iff_of_false nofun hp

theorem Except.mapError_eq_ok_iff {ε' : Type} {f : ε → ε'} {x : Except ε α} {a : α} :
    x.mapError f = .ok a ↔ x = .ok a := by
  cases x with
  | error => exact ⟨nofun, nofun⟩
  | ok => exact ⟨fun h => by cases h; rfl, fun h => by cases h; rfl⟩

theorem Except.forM_eq_ok_iff {f : α → Except ε Unit} {l : List α} :
    l.forM f = .ok () ↔ ∀ x ∈ l, f x = .ok () := by
  induction l with
  | nil => exact iff_of_true rfl nofun
  | cons x l ih =>
    rw [List.forall_mem_cons, ← ih]
    exact Except.bind_eq_ok_iff.trans ⟨fun ⟨_, hx, hl⟩ => ⟨hx, hl⟩, fun ⟨hx, hl⟩ => ⟨(), hx, hl⟩⟩

/-- A loop that keeps an invariant and fails at the first element that is not acceptable. -/
theorem Option.foldlM_cases {σ : Type} {f : σ → α → Option σ} {I : σ → Prop} {ok : α → Prop}
    {l : List α}
    (hstep : ∀ s, ∀ x ∈ l, I s → (ok x ∧ ∃ s', f s x = some s' ∧ I s') ∨ (¬ ok x ∧ f s x = none))
    {s : σ} (hs : I s) :
    ((∀ x ∈ l, ok x) ∧ ∃ s', l.foldlM f s = some s' ∧ I s') ∨
      ((¬ ∀ x ∈ l, ok x) ∧ l.foldlM f s = none) := by
  induction l generalizing s with
  | nil => exact .inl ⟨nofun, s, rfl, hs⟩
  | cons x l ih =>
    rw [List.foldlM_cons, List.forall_mem_cons]
    rcases hstep s x List.mem_cons_self hs with ⟨hok, s', hf, hs'⟩ | ⟨hnot, hf⟩
    · rw [hf, and_iff_right hok]
      exact ih (fun s y hy => hstep s y (List.mem_cons_of_mem x hy)) hs'
    · rw [hf]
      exact .inr ⟨fun h => hnot h.1, rfl⟩

/-- A loop over all elements returns if each of its steps does. -/
theorem Option.isSome_mapM_iff {f : α → Option β} {l : List α} :
    (l.mapM f).isSome = true ↔ ∀ x ∈ l, (f x).isSome = true := by
  induction l with
  | nil => exact iff_of_true rfl nofun
  | cons x l ih =>
    rw [List.mapM_cons, List.forall_mem_cons, ← ih]
    cases f x with
    | none => exact iff_of_false nofun fun h => nomatch h.1
    | some y => cases l.mapM f <;> simp

theorem Option.mapM_eq_some_of_forall₂ {f : α → Option β} {l : List α} {l' : List β}
    (h : List.Forall₂ (fun x y => f x = some y) l l') : l.mapM f = some l' := by
  induction h with
  | nil => rfl
  | cons hx _ ih => rw [List.mapM_cons, hx, ih]; rfl

theorem Option.mapM_range_getElem? {l : List α} {n : Nat} (hn : n ≤ l.length) :
    (List.range n).mapM (l[·]?) = some (l.take n) := by
  apply Option.mapM_eq_some_of_forall₂
  refine List.forall₂_iff_get.mpr ⟨by simp [hn], fun i hi _ => ?_⟩
  rw [List.length_range] at hi
  simp [List.getElem?_eq_getElem (Nat.lt_of_lt_of_le hi hn)]

def Computes (o : Option Bool) (P : Prop) : Prop := ∃ r, o = some r ∧ (r = true ↔ P)

namespace Computes

variable {α : Type} {o : Option Bool} {P Q : Prop} {p : α → Option Bool} {l : List α}

theorem eq_true_iff (h : Computes o P) : o = some true ↔ P := by
  obtain ⟨r, rfl, hr⟩ := h
  rw [Option.some.injEq, hr]

theorem eq_false_iff (h : Computes o P) : o = some false ↔ ¬ P := by
  obtain ⟨r, rfl, hr⟩ := h
  rw [Option.some.injEq, ← hr, Bool.not_eq_true]

theorem congr (h : Computes o P) (hPQ : P ↔ Q) : Computes o Q := by
  obtain ⟨r, rfl, hr⟩ := h
  exact ⟨r, rfl, hr.trans hPQ⟩

theorem some_iff {r : Bool} (h : r = true ↔ P) : Computes (some r) P := ⟨r, rfl, h⟩

theorem eq_some_getD (h : Computes o P) : o = some (o.getD false) ∧ (o.getD false = true ↔ P) := by
  obtain ⟨r, rfl, hr⟩ := h
  exact ⟨rfl, hr⟩

theorem anyM {P : α → Prop} (h : ∀ x ∈ l, Computes (p x) (P x)) :
    Computes (l.anyM p) (∃ x ∈ l, P x) := by
  induction l with
  | nil => exact ⟨false, rfl, by simp⟩
  | cons x l ih =>
    obtain ⟨r, hr, hx⟩ := h x List.mem_cons_self
    obtain ⟨r', hr', hl⟩ := ih fun y hy => h y (List.mem_cons_of_mem x hy)
    rw [List.anyM, hr]
    cases r with
    | true => exact ⟨true, rfl, by simp [hx.mp rfl]⟩
    | false =>
      refine ⟨r', hr', ?_⟩
      have hnot : ¬ P x := fun hp => Bool.false_ne_true (hx.mpr hp)
      simp [hl, hnot]

theorem filterAuxM_eq {q : α → Bool} (h : ∀ x ∈ l, p x = some (q x)) (acc : List α) :
    l.filterAuxM p acc = some ((l.filter q).reverse ++ acc) := by
  induction l generalizing acc with
  | nil => rfl
  | cons x l ih =>
    rw [List.filterAuxM, h x List.mem_cons_self]
    change l.filterAuxM p (bif q x then x :: acc else acc) = _
    rw [ih fun y hy => h y (List.mem_cons_of_mem x hy), List.filter_cons]
    cases q x <;> simp

theorem filterM {P : α → Prop} (h : ∀ x ∈ l, Computes (p x) (P x)) :
    ∃ q : α → Bool, l.filterM p = some (l.filter q) ∧ ∀ x ∈ l, q x = true ↔ P x := by
  refine ⟨fun x => (p x).getD false, ?_, fun x hx => (h x hx).eq_some_getD.2⟩
  rw [List.filterM, filterAuxM_eq (fun x hx => (h x hx).eq_some_getD.1)]
  simp

end Computes
