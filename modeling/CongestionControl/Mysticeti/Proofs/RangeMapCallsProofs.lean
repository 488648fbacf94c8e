import CongestionControl.Mysticeti.Proofs.RangeMapProofs

/-!
# Range maps as partial functions

`mutate_range` calls its function on consecutive ranges that make up the requested one. Each call is
given the value all keys of its range have, and what it leaves there is the value they have afterwards.
-/

namespace CongestionControl.Mysticeti.RangeMap

variable {K V S : Type} [LinearOrder K]

structure Call (K V : Type) where
  range : Range K
  before : Option V
  after : Option V
  deriving DecidableEq, Repr

def returning (f : S → Range K → Option V → S × Option V) (s : S) (range : Range K)
    (v : Option V) : Option (S × Option V) :=
  some (f s range v)

def recording (f : S → Range K → Option V → S × Option V) (s : S × List (Call K V))
    (range : Range K) (v : Option V) : Option ((S × List (Call K V)) × Option V) :=
  some (((f s.1 range v).1, s.2 ++ [⟨range, v, (f s.1 range v).2⟩]), (f s.1 range v).2)

/-- The maps that calls of `mutate_range` make of the empty one. -/
inductive Reachable : RangeMap K V → Prop
  | empty : Reachable empty
  | mutate {S : Type} {m m' : RangeMap K V} {range : Range K} {s s' : S}
      (f : S → Range K → Option V → S × Option V) :
      Reachable m → range.start < range.stop →
      mutateRange (returning f) s m range = some (s', m') → Reachable m'

/-- Non-empty ranges that follow each other from `a` to `b`. -/
def Consecutive (a b : K) : List (Range K) → Prop
  | [] => a = b
  | range :: ranges => range.start = a ∧ a < range.stop ∧ Consecutive range.stop b ranges

variable {f : S → Range K → Option V → S × Option V} {m m' : RangeMap K V} {a b c : K}

theorem Consecutive.append {ranges : List (Range K)} (h : Consecutive a b ranges) (hbc : b < c) :
    Consecutive a c (ranges ++ [⟨b, c⟩]) := by
  induction ranges generalizing a with
  | nil =>
    obtain rfl : a = b := h
    exact ⟨rfl, hbc, rfl⟩
  | cons range ranges ih => exact ⟨h.1, h.2.1, ih h.2.2⟩

theorem Consecutive.le {ranges : List (Range K)} (h : Consecutive a b ranges) : a ≤ b := by
  induction ranges generalizing a with
  | nil => exact le_of_eq h
  | cons range ranges ih => exact h.2.1.le.trans (ih h.2.2)

theorem Consecutive.stop_le {ranges : List (Range K)} (h : Consecutive a b ranges)
    {range : Range K} (hrange : range ∈ ranges) : range.stop ≤ b := by
  induction ranges generalizing a with
  | nil => cases hrange
  | cons first ranges ih =>
    rcases List.mem_cons.mp hrange with rfl | hrange
    · exact h.2.2.le
    · exact ih h.2.2 hrange

theorem mutateStep_recording (s : S) (calls : List (Call K V)) (range : Range K) :
    (mutateStep (recording f) (s, calls) m range).map (fun r => (r.1.1, r.2)) =
      mutateStep (returning f) s m range := by
  unfold mutateStep
  cases m.startingAt range.start with
  | none => rfl
  | some started =>
    cases hover : started.1.overlap range started.2 with
    | none => simp only [Option.bind_eq_bind, Option.bind_some, hover, Option.bind_none,
        Option.map_none]
    | some piece =>
      simp only [Option.bind_eq_bind, Option.bind_some, hover, recording, returning]
      split_ifs <;> rfl

theorem mutateLoop_recording (fuel : Nat) (s : S) (calls : List (Call K V)) (range : Range K) :
    (mutateLoop (recording f) fuel (s, calls) m range).map (fun r => (r.1.1, r.2)) =
      mutateLoop (returning f) fuel s m range := by
  induction fuel generalizing s calls m range with
  | zero => rfl
  | succ fuel ih =>
    unfold mutateLoop
    rw [← mutateStep_recording s calls range]
    cases mutateStep (recording f) (s, calls) m range with
    | none => rfl
    | some r =>
      obtain ⟨⟨s', calls'⟩, m', next⟩ := r
      cases next with
      | none => rfl
      | some next => exact ih s' calls' next

theorem mutateRange_recording (s : S) (calls : List (Call K V)) (range : Range K) :
    (mutateRange (recording f) (s, calls) m range).map (fun r => (r.1.1, r.2)) =
      mutateRange (returning f) s m range :=
  mutateLoop_recording _ s calls range

/-- The calls made before the loop has reached the key `x`, when the map was `g₀` and is now `g`. -/
structure Calls (a x : K) (g₀ : K → Option V) (calls : List (Call K V)) (g : K → Option V) :
    Prop where
  consecutive : Consecutive a x (calls.map (·.range))
  pointwise : ∀ call ∈ calls, ∀ z, call.range.start ≤ z → z < call.range.stop →
    g₀ z = call.before ∧ g z = call.after
  frame : ∀ z, z < a ∨ x ≤ z → g z = g₀ z

theorem Calls.nil {g : K → Option V} : Calls a a g [] g where
  consecutive := rfl
  pointwise := by simp
  frame _ _ := rfl

theorem Calls.append {x y : K} {g₀ g : K → Option V} {calls : List (Call K V)} {v : Option V}
    (h : Calls a x g₀ calls g) (hax : a ≤ x) (hxy : x < y)
    (hsame : ∀ z, x ≤ z → z < y → g z = g x) :
    Calls a y g₀ (calls ++ [⟨⟨x, y⟩, g x, v⟩]) fun z => if x ≤ z ∧ z < y then v else g z where
  consecutive := by
    rw [List.map_append]
    exact h.consecutive.append hxy
  pointwise call hcall z hz hzy := by
    rcases List.mem_append.mp hcall with hcall | hcall
    · have hstop : call.range.stop ≤ x := h.consecutive.stop_le (List.mem_map_of_mem hcall)
      have hzx : z < x := hzy.trans_le hstop
      rw [if_neg fun hxz => absurd hxz.1 (not_le.mpr hzx)]
      exact h.pointwise call hcall z hz hzy
    · obtain rfl := List.mem_singleton.mp hcall
      rw [if_pos ⟨hz, hzy⟩, ← h.frame z (.inr hz)]
      exact ⟨hsame z hz hzy, rfl⟩
  frame z hz := by
    have hout : z < x ∨ y ≤ z := hz.imp_left (·.trans_le hax)
    rw [if_neg fun hxz => hout.elim (not_lt.mpr hxz.1) (not_le.mpr hxz.2)]
    exact h.frame z (hz.imp_right hxy.le.trans)

theorem Valid.mutateRange_calls (h : m.Valid) (hab : a < b) (s : S) :
    ∃ s' calls m', mutateRange (recording f) (s, []) m ⟨a, b⟩ = some ((s', calls), m') ∧
      m'.Valid ∧ Calls a b m.get calls m'.get := by
  obtain ⟨⟨s', calls⟩, m', hrun, hvalid, hcalls⟩ := h.mutateRange_run (f := recording f)
    (I := fun x s g => Calls a x m.get s.2 g) (s := (s, [])) hab Calls.nil (by
      intro x y s g hax hxy _ hcalls hsame
      exact ⟨_, _, rfl, hcalls.append hax hxy hsame⟩)
  exact ⟨s', calls, m', hrun, hvalid, hcalls⟩

theorem Reachable.valid (h : Reachable m) : m.Valid := by
  induction h with
  | empty => exact valid_empty
  | @mutate S m m' range s s' f _ hlt hrun ih =>
    obtain ⟨t, calls, n, hrecorded, hvalid, -⟩ := ih.mutateRange_calls hlt s
    have hsame := mutateRange_recording (f := f) (m := m) s [] range
    rw [hrecorded, hrun] at hsame
    obtain rfl : n = m' := congrArg Prod.snd (Option.some.inj hsame)
    exact hvalid

/-- A call of `mutate_range` on a non-empty range returns. The calls of the mutation function
partition the range in ascending order, the value each is given is the one every key of its range
had, the value each leaves is the one they have afterwards, and no other key changes its value. The
items of the map stay non-empty, disjoint, keyed by their start and defined. -/
theorem mutateRange_pointwise (hm : Reachable m) (hab : a < b)
    (f : S → Range K → Option V → S × Option V) (s : S) :
    ∃ s' calls m', mutateRange (returning f) s m ⟨a, b⟩ = some (s', m') ∧
      mutateRange (recording f) (s, []) m ⟨a, b⟩ = some ((s', calls), m') ∧
      Consecutive a b (calls.map (·.range)) ∧
      (∀ call ∈ calls, ∀ x, call.range.start ≤ x → x < call.range.stop →
        m.get x = call.before ∧ m'.get x = call.after) ∧
      (∀ x, x < a ∨ b ≤ x → m'.get x = m.get x) ∧ m'.Valid := by
  obtain ⟨s', calls, m', hrun, hvalid, hcalls⟩ := hm.valid.mutateRange_calls (f := f) hab s
  have hsame := mutateRange_recording (f := f) (m := m) s [] ⟨a, b⟩
  rw [hrun] at hsame
  exact ⟨s', calls, m', hsame.symm, hrun, hcalls.consecutive, hcalls.pointwise, hcalls.frame,
    hvalid⟩

theorem stamped_numbered : ∃ m : RangeMap Nat Nat, Reachable m ∧ m.get 3 = some 7 ∧
    ∃ pieces calls m', mutateRange (returning fun n _ _ => (n + 1, some n)) 0 m ⟨0, 10⟩ =
        some (pieces, m') ∧
      mutateRange (recording fun n _ _ => (n + 1, some n)) (0, []) m ⟨0, 10⟩ =
        some ((pieces, calls), m') ∧
      Consecutive 0 10 (calls.map (·.range)) := by
  obtain ⟨_, calls, m, hstamp, hrecorded, hconsecutive, hpointwise, -, -⟩ :=
    mutateRange_pointwise (K := Nat) (V := Nat) .empty (by decide : 2 < 5)
      (fun _ _ _ => ((), some 7)) ()
  have hcalls : calls = [⟨⟨2, 5⟩, none, some 7⟩] :=
    (congrArg (fun r => r.1.2) (Option.some.inj hrecorded)).symm
  have hreach : Reachable m := Reachable.empty.mutate _ (by decide) hstamp
  obtain ⟨pieces, calls', m', hrun, hrun', hparts, -⟩ :=
    mutateRange_pointwise hreach (by decide : 0 < 10) (fun n _ _ => (n + 1, some n)) 0
  have hget := hpointwise ⟨⟨2, 5⟩, none, some 7⟩ (by rw [hcalls]; exact List.mem_singleton_self _) 3
    (by decide) (by decide)
  exact ⟨m, hreach, hget.2, pieces, calls', m', hrun, hrun', hparts⟩

end CongestionControl.Mysticeti.RangeMap
