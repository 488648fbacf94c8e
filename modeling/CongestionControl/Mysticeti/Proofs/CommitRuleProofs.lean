import CongestionControl.Mysticeti.CommitRule

/-!
# The commit rule is stable

A slot has at most one certified block and none if it is blamed, and a block that is directly committed
has a certificate in the history of every later anchor. So decisions are stable when the DAG grows.
-/

namespace CongestionControl.Mysticeti

namespace ConsensusDag

variable {committee : Committee} {dag : ConsensusDag committee} {b b' c c' x : StatementBlock}
  {s : Slot} {known known' : Set StatementBlock}

theorem exists_honest (dag : ConsensusDag committee) {P Q : AuthorityIndex → Prop} (hP : committee.HasQuorum P)
    (hQ : committee.HasQuorum Q) : ∃ a, P a ∧ Q a ∧ ¬ Equivocates dag.blocks a := by
  obtain ⟨a, -, h⟩ := hP.exists_correct hQ dag.honest
  exact ⟨a, h⟩

theorem eq_of_not_equivocates {a : AuthorityIndex} (ha : ¬ Equivocates dag.blocks a)
    (hb : b ∈ dag.blocks) (hb' : b' ∈ dag.blocks) (hab : b.author = a) (hab' : b'.author = a)
    (hround : b.round = b'.round) : b = b' := by
  by_contra hne
  exact ha ⟨b, hb, b', hb', hab, hab', hround, hne⟩

section

variable (htotal : committee.totalStake < 2 ^ 63)

include htotal

theorem verified_of_round (hb : b ∈ dag.blocks) (hround : b.round ≠ 0) : Verified committee b := by
  rcases dag.valid b hb with ⟨a, -, rfl⟩ | hv
  · exact absurd rfl hround
  · exact (verify_iff htotal).mp hv

theorem author_known (hb : b ∈ dag.blocks) :
    b.author ∈ Finset.range committee.len := by
  rcases dag.valid b hb with ⟨a, ha, rfl⟩ | hv
  · exact Committee.knownAuthority_iff.mp ha
  · exact ((verify_iff htotal).mp hv).author

theorem include_known (hb : b ∈ dag.blocks) {i : BlockReference} (hi : i ∈ b.includes) :
    i.authority ∈ Finset.range committee.len ∧ i.round < b.round := by
  rcases dag.valid b hb with ⟨a, -, rfl⟩ | hv
  · cases hi
  · have hv := (verify_iff htotal).mp hv
    exact ⟨hv.known i hi, hv.lower i hi⟩

end

/-- A slot has at most one certified block. -/
theorem certified_unique (hb : b ∈ dag.blocks) (hb' : b' ∈ dag.blocks)
    (hslot : b.authorRound = b'.authorRound) (h : dag.Certifies c b) (h' : dag.Certifies c' b') :
    b = b' := by
  obtain ⟨a, ⟨v, hv, -, hvotes, hav⟩, ⟨v', hv', -, hvotes', hav'⟩, ha⟩ :=
    exists_honest dag h.2 h'.2
  have hround : b.round = b'.round := congrArg Prod.snd hslot
  have hsame : v = v' := eq_of_not_equivocates ha hv hv' hav hav' (by
    rw [hvotes.1, hvotes'.1, hround])
  have hfind := hvotes.2
  rw [hsame, hslot, hvotes'.2] at hfind
  exact dag.unique b hb b' hb' (Option.some.inj hfind).symm

/-- A blamed leader has no certificate. -/
theorem not_certifies_of_blamed (hknown : known ⊆ dag.blocks)
    (hblamed : committee.Blamed known b.authorRound) : ¬ dag.Certifies c b := by
  intro h
  obtain ⟨a, ⟨v, hv, hround, hblames, hav⟩, ⟨v', hv', -, hvotes, hav'⟩, ha⟩ :=
    exists_honest dag hblamed h.2
  have hsame : v = v' :=
    eq_of_not_equivocates ha (hknown hv) hv' hav hav' (hround.trans hvotes.1.symm)
  have hmem := List.mem_of_find?_eq_some hvotes.2
  exact hblames b.reference (hsame ▸ hmem) rfl

theorem exists_link (htotal : committee.totalStake < 2 ^ 63) (hknown : known ⊆ dag.blocks)
    (hclosed : Closed known) (hx : x ∈ known) (hround : x.round ≠ 0) :
    ∃ y ∈ known, dag.Link x y := by
  have hv := verified_of_round htotal (hknown hx) hround
  obtain ⟨a, -, i, hi, hir, -⟩ := Quorum.Exceeds.exists_member hv.quorum
  obtain ⟨y, hy, rfl⟩ := hclosed x hx i hi
  exact ⟨y, hy, hknown hy, hi, hir.symm⟩

/-- Every block behind the wave of a supported leader block is linked to a certificate. -/
theorem certifiedFrom_of_supported (htotal : committee.totalStake < 2 ^ 63)
    (hknown : known ⊆ dag.blocks) (hknown' : known' ⊆ dag.blocks) (hclosed : Closed known')
    (hsupp : dag.Supported known b) (hx : x ∈ known') (hround : b.round + 3 ≤ x.round) :
    dag.CertifiedFrom x b := by
  obtain ⟨k, hk⟩ : ∃ k, x.round = b.round + 3 + k := Nat.exists_eq_add_of_le hround
  clear hround
  -- Induction on the distance; in the round after the wave the quorums intersect.
  induction k generalizing x with
  | zero =>
    have hv := verified_of_round htotal (hknown' hx) (hk ▸ Nat.succ_ne_zero _)
    obtain ⟨a, ⟨i, hi, hir, hia⟩, ⟨c, hc, hcert, hca⟩, ha⟩ :=
      exists_honest dag hv.quorum hsupp
    obtain ⟨y, hy, rfl⟩ := hclosed x hx i hi
    have hyr : y.round = c.round := by
      rw [hcert.1]
      exact Nat.succ.inj (hir.trans hk)
    have hsame : y = c := eq_of_not_equivocates ha (hknown' hy) (hknown hc) hia hca hyr
    exact ⟨y, hknown' hy, .single ⟨hknown' hy, hi, hir.symm⟩, hsame ▸ hcert⟩
  | succ k ih =>
    obtain ⟨y, hy, hlink⟩ := exists_link htotal hknown' hclosed hx (hk ▸ Nat.succ_ne_zero _)
    obtain ⟨c, hc, hpath, hcert⟩ := ih hy (Nat.succ.inj (hlink.2.2.symm.trans hk))
    exact ⟨c, hc, .head hlink hpath, hcert⟩

theorem supported_certifies (h : dag.Supported known b) : ∃ c ∈ known, dag.Certifies c b := by
  obtain ⟨a, -, c, hc, hcert, -⟩ := Quorum.Exceeds.exists_member h
  exact ⟨c, hc, hcert⟩

theorem direct_eq_skip_iff :
    dag.direct known s = .skip ↔ committee.Blamed known s := by
  unfold direct
  split_ifs with h1 h2 <;> simp [h1]

theorem direct_eq_commit_iff (hknown : known ⊆ dag.blocks) :
    dag.direct known s = .commit b ↔
      b ∈ dag.blocks ∧ b.authorRound = s ∧ dag.Supported known b := by
  unfold direct
  constructor
  · intro h
    split_ifs at h with h1 h2
    cases h
    exact h2.choose_spec
  · rintro ⟨hb, rfl, hsupp⟩
    obtain ⟨c, hc, hcert⟩ := supported_certifies hsupp
    rw [if_neg fun h1 => not_certifies_of_blamed hknown h1 hcert, dif_pos ⟨b, hb, rfl, hsupp⟩]
    have hex : ∃ b' ∈ dag.blocks, b'.authorRound = b.authorRound ∧ dag.Supported known b' :=
      ⟨b, hb, rfl, hsupp⟩
    obtain ⟨hb', hslot, hsupp'⟩ := hex.choose_spec
    obtain ⟨c', hc', hcert'⟩ := supported_certifies hsupp'
    exact congrArg _ (certified_unique hb' hb hslot hcert' hcert)

theorem fromAnchor_eq_commit_iff :
    dag.fromAnchor x s = .commit b ↔
      b ∈ dag.blocks ∧ b.authorRound = s ∧ dag.CertifiedFrom x b := by
  unfold fromAnchor
  constructor
  · intro h
    split_ifs at h with h1
    cases h
    exact h1.choose_spec
  · rintro ⟨hb, rfl, c, hc, hpath, hcert⟩
    have hex : ∃ b' ∈ dag.blocks, b'.authorRound = b.authorRound ∧ dag.CertifiedFrom x b' :=
      ⟨b, hb, rfl, c, hc, hpath, hcert⟩
    rw [dif_pos hex]
    obtain ⟨hb', hslot, c', hc', -, hcert'⟩ := hex.choose_spec
    exact congrArg _ (certified_unique hb' hb hslot hcert' hcert)

theorem fromAnchor_eq_skip_iff :
    dag.fromAnchor x s = .skip ↔
      ∀ b ∈ dag.blocks, b.authorRound = s → ¬ dag.CertifiedFrom x b := by
  unfold fromAnchor
  split_ifs with h
  · obtain ⟨b, hb, hslot, hcert⟩ := h
    exact iff_of_false nofun fun hnone => hnone b hb hslot hcert
  · exact iff_of_true rfl fun b hb hslot hcert => h ⟨b, hb, hslot, hcert⟩

theorem direct_mono (hsub : known ⊆ known') (hknown' : known' ⊆ dag.blocks)
    (h : dag.direct known s ≠ .undecided) : dag.direct known' s = dag.direct known s := by
  cases hd : dag.direct known s with
  | undecided => exact absurd hd h
  | skip =>
    rw [direct_eq_skip_iff] at hd ⊢
    exact hd.mono fun a ⟨v, hv, hrest⟩ => ⟨v, hsub hv, hrest⟩
  | commit b =>
    rw [direct_eq_commit_iff (hsub.trans hknown')] at hd
    rw [direct_eq_commit_iff hknown']
    exact ⟨hd.1, hd.2.1, hd.2.2.mono fun a ⟨c, hc, hrest⟩ => ⟨c, hsub hc, hrest⟩⟩

/-- An anchor does not contradict the direct rule. -/
theorem fromAnchor_eq_direct (htotal : committee.totalStake < 2 ^ 63) (hknown : known ⊆ dag.blocks)
    (hclosed : Closed known) (hx : x ∈ known) (hfar : Far s x.authorRound)
    (h : dag.direct known s ≠ .undecided) : dag.fromAnchor x s = dag.direct known s := by
  cases hd : dag.direct known s with
  | undecided => exact absurd hd h
  | skip =>
    rw [direct_eq_skip_iff] at hd
    rw [fromAnchor_eq_skip_iff]
    rintro b - rfl ⟨c, -, -, hcert⟩
    exact not_certifies_of_blamed hknown hd hcert
  | commit b =>
    obtain ⟨hb, rfl, hsupp⟩ := (direct_eq_commit_iff hknown).mp hd
    rw [fromAnchor_eq_commit_iff]
    exact ⟨hb, rfl, certifiedFrom_of_supported htotal hknown hknown hclosed hsupp hx hfar⟩

theorem link_mem (hknown : known ⊆ dag.blocks) (hclosed : Closed known) (hx : x ∈ known)
    (hpath : Relation.ReflTransGen dag.Link x c) : c ∈ known := by
  induction hpath with
  | refl => exact hx
  | tail _ hlink ih =>
    obtain ⟨y, hy, hr⟩ := hclosed _ ih _ hlink.2.1
    exact dag.unique y (hknown hy) _ hlink.1 hr ▸ hy

theorem mem_of_certifies (hknown : known ⊆ dag.blocks) (hclosed : Closed known) (hc : c ∈ known)
    (hb : b ∈ dag.blocks) (h : dag.Certifies c b) : b ∈ known := by
  obtain ⟨a, -, v, hv, hvc, hvotes, -⟩ := Quorum.Exceeds.exists_member h.2
  obtain ⟨y, hy, hr⟩ := hclosed c hc _ hvc
  obtain rfl := dag.unique y (hknown hy) v hv hr
  obtain ⟨z, hz, hzr⟩ := hclosed y hy _ (List.mem_of_find?_eq_some hvotes.2)
  exact dag.unique z (hknown hz) b hb hzr ▸ hz

noncomputable def decisions (dag : ConsensusDag committee) (known : Set StatementBlock)
    (slots : List Slot) : List (Slot × Anchored.Verdict StatementBlock) :=
  Anchored.run Far dag.fromAnchor (dag.direct known) slots

theorem decisions_append (dag : ConsensusDag committee) (known : Set StatementBlock)
    (slots later : List Slot) :
    ∃ l, dag.decisions known (slots ++ later) = l ++ dag.decisions known later ∧
      l.map Prod.fst = slots :=
  Anchored.run_append slots later

theorem map_fst_decisions (slots : List Slot) :
    (dag.decisions known slots).map Prod.fst = slots :=
  Anchored.map_fst_run slots

def Commits (known : Set StatementBlock) (s : Slot) (b : StatementBlock) : Prop :=
  b ∈ known ∧ b.authorRound = s

theorem commits_direct (hknown : known ⊆ dag.blocks) (hclosed : Closed known)
    (h : dag.direct known s = .commit b) : Commits known s b := by
  obtain ⟨hb, hslot, hsupp⟩ := (direct_eq_commit_iff hknown).mp h
  obtain ⟨c, hc, hcert⟩ := supported_certifies hsupp
  exact ⟨mem_of_certifies hknown hclosed hc hb hcert, hslot⟩

theorem commits_fromAnchor (hknown : known ⊆ dag.blocks) (hclosed : Closed known) (hx : x ∈ known)
    (h : dag.fromAnchor x s = .commit b) : Commits known s b := by
  obtain ⟨hb, hslot, c, -, hpath, hcert⟩ := fromAnchor_eq_commit_iff.mp h
  exact ⟨mem_of_certifies hknown hclosed (link_mem hknown hclosed hx hpath) hb hcert, hslot⟩

theorem commits_of_mem_decisions (hknown : known ⊆ dag.blocks) (hclosed : Closed known)
    {slots : List Slot} (h : (s, Anchored.Verdict.commit b) ∈ dag.decisions known slots) :
    Commits known s b :=
  Anchored.commits_of_mem_run (Commits known)
    (fun _ _ => commits_direct hknown hclosed)
    (fun _ _ _ _ _ ha => commits_fromAnchor hknown hclosed ha.1) h

theorem decisions_extend (htotal : committee.totalStake < 2 ^ 63) (hsub : known ⊆ known')
    (hknown' : known' ⊆ dag.blocks) (hclosed' : Closed known') (slots later : List Slot) :
    Anchored.Extends (dag.decisions known slots) (dag.decisions known' (slots ++ later)) := by
  refine Anchored.run_extends (Commits known')
    (fun _ _ => commits_direct hknown' hclosed')
    (fun _ _ _ _ _ ha => commits_fromAnchor hknown' hclosed' ha.1)
    (fun s => direct_mono hsub hknown') (fun s t a hfar ha => ?_) slots later
  exact fromAnchor_eq_direct htotal hknown' hclosed' ha.1 (ha.2 ▸ hfar)

def ofList (l : List StatementBlock)
    (single : ∀ b ∈ l, ∀ b' ∈ l, b.authorRound = b'.authorRound → b = b')
    (valid : ∀ b ∈ l, (∃ a, committee.knownAuthority a ∧ b = .newGenesis a) ∨
      b.verify committee = .ok ()) : ConsensusDag committee where
  blocks := {b | b ∈ l}
  unique b hb b' hb' hr := single b hb b' hb' (congrArg (fun r => (r.authority, r.round)) hr)
  valid := valid
  honest authorities h := by
    have hnone : authorities = ∅ := by
      rw [Finset.eq_empty_iff_forall_notMem]
      intro a ha
      obtain ⟨b, hb, b', hb', hab, hab', hround, hne⟩ := h a ha
      exact hne (single b hb b' hb' (Prod.ext (hab.trans hab'.symm) hround))
    rw [hnone]
    rfl

end ConsensusDag

namespace View

variable {committee : Committee} {dag : ConsensusDag committee} {l : List StatementBlock}

theorem mem_store_ofList (hsub : ∀ b ∈ l, b ∈ dag.blocks) {b : StatementBlock} :
    b ∈ (BlockStore.ofList l).blocks ↔ b ∈ l :=
  BlockStore.mem_blocks_ofList fun b hb b' hb' => dag.unique b (hsub b hb) b' (hsub b' hb')

def ofList (l : List StatementBlock) (hsub : ∀ b ∈ l, b ∈ dag.blocks)
    (hclosed : ∀ b ∈ l, ∀ i ∈ b.includes, ∃ b' ∈ l, b'.reference = i) : View dag where
  store := .ofList l
  order := .sorted
  subset b hb := hsub b ((mem_store_ofList hsub).mp hb)
  closed b hb i hi := by
    obtain ⟨b', hb', hr⟩ := hclosed b ((mem_store_ofList hsub).mp hb) i hi
    exact ⟨b', (mem_store_ofList hsub).mpr hb', hr⟩

theorem mem_ofList {hsub : ∀ b ∈ l, b ∈ dag.blocks}
    {hclosed : ∀ b ∈ l, ∀ i ∈ b.includes, ∃ b' ∈ l, b'.reference = i} {b : StatementBlock} :
    b ∈ (ofList l hsub hclosed).store.blocks ↔ b ∈ l := mem_store_ofList hsub

end View

end CongestionControl.Mysticeti
