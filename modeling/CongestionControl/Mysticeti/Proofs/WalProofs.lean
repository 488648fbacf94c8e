import CongestionControl.Mysticeti.Wal
import Mathlib.Tactic

/-!
# The log reads back what was written

The iterator tries to read a header at the end of every entry but the last. If fewer bytes than a header
takes are left in the mapping, the slice panics; otherwise the iterator yields what was written.
-/

namespace CongestionControl.Mysticeti.Wal

/-! ## Headers -/

theorem splitHeader_combineHeader {crc len combined : Nat} {tag : Tag} (hcrc : crc < 2 ^ 64)
    (h : combineHeader crc len tag = some combined) : splitHeader combined = (crc, len, tag) := by
  unfold combineHeader at h
  split at h
  case isFalse => exact nomatch h
  case isTrue hlen =>
    obtain rfl := Option.some.inj h
    have hhigh : (crc + len * 2 ^ 64 + tag.toNat * 2 ^ (64 + 32)) / 2 ^ (64 + 32) = tag.toNat := by
      omega
    rw [splitHeader, hhigh, UInt32.ofNat_toNat]
    congr 2 <;> omega

theorem combineHeader_lt {crc len combined : Nat} {tag : Tag} (hcrc : crc < 2 ^ 64)
    (h : combineHeader crc len tag = some combined) : combined < 256 ^ headerLenBytes := by
  unfold combineHeader at h
  split at h
  case isFalse => exact nomatch h
  case isTrue hlen =>
    obtain rfl := Option.some.inj h
    have htag := tag.toNat_lt
    have hpow : 256 ^ headerLenBytes = 2 ^ 128 := by decide
    omega

/-! ## Slices of a mapping -/

section Mapping

variable {file : List UInt8}

theorem length_mapOffset (off : Nat) : (mapOffset file off).length = mapSize := by
  rw [mapOffset, List.length_take, List.length_append, List.length_replicate]
  omega

theorem slice_mapOffset {off start stop : Nat} (hle : start ≤ stop) (hmap : stop ≤ mapSize)
    (hfile : off + stop ≤ file.length) :
    slice (mapOffset file off) start stop = some ((file.drop (off + start)).take (stop - start)) := by
  rw [slice, if_pos ⟨hle, by rwa [length_mapOffset]⟩, mapOffset, List.drop_take, List.take_take,
    List.drop_append_of_le_length (by rw [List.length_drop]; omega), List.drop_drop,
    List.take_append_of_le_length (by rw [List.length_drop]; omega), Nat.min_eq_left (by omega)]

theorem slice_mapOffset_eq_none {off start stop : Nat} (hmap : mapSize < stop) :
    slice (mapOffset file off) start stop = none := by
  rw [slice, if_neg]
  rw [length_mapOffset]
  omega

end Mapping

/-! ## Entries in a file -/

section Entries

variable {crc : List UInt8 → UInt32} {file : List UInt8} {e : Entry}

/-- The bytes of an entry stand at its position, inside one mapping. -/
structure Stored (crc : List UInt8 → UInt32) (file : List UInt8) (e : Entry) : Prop where
  inMap : offset e.position = offset (e.stop - 1)
  bytes : ∃ header front back,
    combineHeader (crc e.data).toNat (e.data.length + headerLenBytes) e.tag = some header ∧
      front.length = e.position ∧ file = front ++ (Bytes.toLe headerLenBytes header ++ e.data) ++ back

theorem Stored.append (h : Stored crc file e) (more : List UInt8) : Stored crc (file ++ more) e := by
  obtain ⟨hmap, header, front, back, hheader, hfront, hfile⟩ := h
  exact ⟨hmap, header, front, back ++ more, hheader, hfront, by rw [hfile, List.append_assoc]⟩

theorem Stored.stop_le (h : Stored crc file e) : e.stop ≤ file.length := by
  obtain ⟨-, header, front, back, -, hfront, rfl⟩ := h
  simp only [List.length_append, Bytes.length_toLe, Entry.stop]
  omega

theorem Stored.bufOffset_le (h : Stored crc file e) :
    e.position - offset e.position + (e.data.length + headerLenBytes) ≤ mapSize := by
  have hmap := h.inMap
  simp only [offset, Entry.stop, mapSize, headerLenBytes] at hmap ⊢
  omega

theorem offset_add_sub (p : Nat) : offset p + (p - offset p) = p := by
  have hle : offset p ≤ p := Nat.div_mul_le_self p mapSize
  omega

theorem Stored.tryRead_eq (h : Stored crc file e) :
    tryRead crc file e.position = some (some (e.tag, e.data)) := by
  have hbuf := h.bufOffset_le
  have hstop := h.stop_le
  have hpos := offset_add_sub e.position
  obtain ⟨-, header, front, back, hheader, hfront, hfile⟩ := h
  have hcrc : (crc e.data).toNat < 2 ^ 64 :=
    (crc e.data).toNat_lt.trans (by decide)
  have hdrop : file.drop e.position = Bytes.toLe headerLenBytes header ++ e.data ++ back := by
    rw [hfile, List.append_assoc, List.drop_left' hfront]
  have hhead : slice (mapOffset file (offset e.position)) (e.position - offset e.position)
      (e.position - offset e.position + headerLenBytes) =
        some (Bytes.toLe headerLenBytes header) := by
    rw [slice_mapOffset (by omega) (by omega) (by rw [Entry.stop] at hstop; omega), hpos, hdrop,
      List.append_assoc, List.take_left' (by simp)]
  have hdata : slice (mapOffset file (offset e.position))
      (e.position - offset e.position + headerLenBytes)
      (e.position - offset e.position + (e.data.length + headerLenBytes)) = some e.data := by
    rw [slice_mapOffset (by omega) hbuf (by rw [Entry.stop] at hstop; omega),
      ← Nat.add_assoc (offset e.position), hpos, ← List.drop_drop, hdrop, List.append_assoc, List.drop_left' (by simp),
      List.take_left' (by omega)]
  have hsplit : splitHeader (Bytes.ofLe (Bytes.toLe headerLenBytes header)) =
      ((crc e.data).toNat, e.data.length + headerLenBytes, e.tag) := by
    rw [Bytes.ofLe_toLe, Nat.mod_eq_of_lt (combineHeader_lt hcrc hheader)]
    exact splitHeader_combineHeader hcrc hheader
  have hne : e.data.length + headerLenBytes ≠ 0 := by simp [headerLenBytes]
  simp only [tryRead, hhead, Option.bind_eq_bind, Option.bind_some, hsplit, if_neg hne, hdata, ite_true]

theorem tryRead_zeros {p : Nat} (hroom : p - offset p + headerLenBytes ≤ mapSize)
    (hzeros : (file.drop p).take headerLenBytes = List.replicate headerLenBytes 0) :
    tryRead crc file p = some none := by
  have hlen : p + headerLenBytes ≤ file.length := by
    have hl := congrArg List.length hzeros
    simp only [List.length_take, List.length_drop, List.length_replicate, headerLenBytes] at hl ⊢
    omega
  have hpos := offset_add_sub p
  have hhead : slice (mapOffset file (offset p)) (p - offset p) (p - offset p + headerLenBytes) =
      some (List.replicate headerLenBytes 0) := by
    rw [slice_mapOffset (by omega) hroom (by omega), hpos, Nat.add_sub_cancel_left, hzeros]
  simp only [tryRead, hhead, Option.bind_eq_bind, Option.bind_some, Bytes.ofLe_replicate_zero]
  rfl

theorem tryRead_eq_none {p : Nat} (hroom : mapSize < p - offset p + headerLenBytes) :
    tryRead crc file p = none := by
  simp only [tryRead, slice_mapOffset_eq_none hroom, Option.bind_eq_bind, Option.bind_none]

end Entries

/-! ## The entries one after another -/

section Chains

variable {crc : List UInt8 → UInt32} {file : List UInt8} {p q : Nat} {e : Entry} {es : List Entry}

inductive Follows (file : List UInt8) (p : Nat) (e : Entry) : Prop
  | direct (position : e.position = p)
  | padded (position : e.position = nextStartOffset p)
      (crosses : mapSize < p - offset p + (e.data.length + headerLenBytes))
      (zeros : ∃ front back, front.length = p ∧
        file = front ++ List.replicate (e.position - p) 0 ++ back)

theorem Follows.append (h : Follows file p e) (more : List UInt8) : Follows (file ++ more) p e := by
  cases h with
  | direct position => exact .direct position
  | padded position crosses zeros =>
    obtain ⟨front, back, hfront, hfile⟩ := zeros
    exact .padded position crosses ⟨front, back ++ more, hfront, by rw [hfile, List.append_assoc]⟩

def Chain (crc : List UInt8 → UInt32) (file : List UInt8) : Nat → List Entry → Nat → Prop
  | p, [], q => p = q
  | p, e :: es, q => Stored crc file e ∧ Follows file p e ∧ Chain crc file e.stop es q

def Room (p : Nat) : Prop := p - offset p + headerLenBytes ≤ mapSize

instance : DecidablePred Room := fun _ => Nat.decLe _ _

/-- There is room for a header at every position where the iterator looks for one of the entries. -/
def Rooms : Nat → List Entry → Prop
  | _, [] => True
  | p, e :: es => Room p ∧ Rooms e.stop es

theorem Follows.le_position (h : Follows file p e) : p ≤ e.position := by
  cases h with
  | direct position => exact position.ge
  | padded position crosses zeros =>
    rw [position, nextStartOffset, offset, mapSize]
    omega

theorem Chain.add_length_le (h : Chain crc file p es q) : p + es.length ≤ q := by
  induction es generalizing p with
  | nil => exact h.le
  | cons e es ih =>
    obtain ⟨-, hfollows, hchain⟩ := h
    have hle := hfollows.le_position
    have hrest := ih hchain
    simp only [Entry.stop, headerLenBytes] at hrest
    rw [List.length_cons]
    omega

theorem tryPosition_of_stored (h : Stored crc file e) (hend : e.stop ≤ q) :
    tryPosition crc file q e.position = some (some e) := by
  have hlt : ¬ q ≤ e.position := by
    simp only [Entry.stop, headerLenBytes] at hend
    omega
  rw [tryPosition, if_neg hlt, h.tryRead_eq]
  rfl

/-- The iterator finds the entry that follows if it has room for a header, and panics if not. -/
theorem next_of_follows (h : Stored crc file e) (hfollows : Follows file p e) (hend : e.stop ≤ q) :
    next crc file q p = if Room p then some (some e) else none := by
  cases hfollows with
  | direct position =>
    subst position
    have hroom : Room e.position := by
      have hbuf := h.bufOffset_le
      rw [Room]
      omega
    simp only [next, tryPosition_of_stored h hend, Option.bind_eq_bind, Option.bind_some, if_pos hroom]
  | padded position crosses zeros =>
    have hlt : ¬ q ≤ p := by
      have hle := (Follows.padded position crosses zeros).le_position
      simp only [Entry.stop, headerLenBytes] at hend
      omega
    by_cases hroom : Room p
    · obtain ⟨front, back, hfront, hfile⟩ := zeros
      have hgap : headerLenBytes ≤ e.position - p := by
        rw [Room] at hroom
        rw [position, nextStartOffset]
        omega
      have hzeros : (file.drop p).take headerLenBytes = List.replicate headerLenBytes 0 := by
        rw [hfile, List.append_assoc, List.drop_left' hfront,
          List.take_append_of_le_length (by simpa using hgap), List.take_replicate,
          Nat.min_eq_left hgap]
      have hfirst : firstInMap p = false := by
        have hbuf := h.bufOffset_le
        rw [firstInMap, decide_eq_false_iff_not]
        omega
      have htry : tryPosition crc file q p = some none := by
        rw [tryPosition, if_neg hlt, tryRead_zeros hroom hzeros]
        rfl
      simp only [next, htry, Option.bind_eq_bind, Option.bind_some, hfirst, if_pos hroom, ← position,
        tryPosition_of_stored h hend, Bool.false_eq_true, if_false]
    · have htry : tryPosition crc file q p = none := by
        rw [tryPosition, if_neg hlt, tryRead_eq_none (Nat.lt_of_not_le hroom)]
        rfl
      simp only [next, htry, Option.bind_eq_bind, Option.bind_none, if_neg hroom]

theorem next_at_end : next crc file q q = some none := by
  have hstart : q ≤ nextStartOffset q := by
    rw [nextStartOffset, offset, mapSize]
    omega
  simp only [next, tryPosition, le_refl, hstart, if_true, Option.bind_eq_bind, Option.bind_some, ite_self]

theorem iterate_of_chain (h : Chain crc file p es q) {fuel : Nat} (hfuel : es.length < fuel) :
    (Rooms p es → iterate crc file q fuel p = some es) ∧
      (¬ Rooms p es → iterate crc file q fuel p = none) := by
  induction es generalizing p fuel with
  | nil =>
    obtain ⟨fuel, rfl⟩ := Nat.exists_eq_succ_of_ne_zero (Nat.ne_zero_of_lt hfuel)
    obtain rfl : p = q := h
    refine ⟨fun _ => ?_, fun hrooms => absurd trivial hrooms⟩
    simp only [iterate, next_at_end, Option.bind_eq_bind, Option.bind_some]
  | cons e es ih =>
    obtain ⟨fuel, rfl⟩ := Nat.exists_eq_succ_of_ne_zero (Nat.ne_zero_of_lt hfuel)
    obtain ⟨hstored, hfollows, hchain⟩ := h
    obtain ⟨hyields, hpanics⟩ := ih hchain (Nat.lt_of_succ_lt_succ hfuel)
    have hnext := next_of_follows hstored hfollows (Nat.le_of_add_right_le hchain.add_length_le)
    by_cases hroom : Room p
    · rw [if_pos hroom] at hnext
      simp only [iterate, hnext, Rooms, hroom, true_and, Option.bind_eq_bind, Option.bind_some]
      exact ⟨fun hrooms => by rw [hyields hrooms]; rfl, fun hrooms => by rw [hpanics hrooms]; rfl⟩
    · rw [if_neg hroom] at hnext
      refine ⟨fun hrooms => absurd hrooms.1 hroom, fun _ => ?_⟩
      simp only [iterate, hnext, Option.bind_eq_bind, Option.bind_none]

theorem Chain.stored (h : Chain crc file p es q) : ∀ e ∈ es, Stored crc file e := by
  induction es generalizing p with
  | nil => exact nofun
  | cons e es ih =>
    obtain ⟨hstored, -, hchain⟩ := h
    rw [List.forall_mem_cons]
    exact ⟨hstored, ih hchain⟩

/-- The iterator looks for a header at the start and at the end of every entry but the last. -/
theorem rooms_iff (hp : Room p) : Rooms p es ↔ ∀ e ∈ es.dropLast, Room e.stop := by
  induction es generalizing p with
  | nil => simp [Rooms]
  | cons e es ih =>
    cases es with
    | nil => simp [Rooms, hp]
    | cons e' es =>
      rw [List.dropLast_cons_cons, List.forall_mem_cons]
      constructor
      · exact fun ⟨_, h⟩ => ⟨h.1, (ih h.1).mp h⟩
      · exact fun ⟨hroom, h⟩ => ⟨hp, (ih hroom).mpr h⟩

end Chains

/-! ## Writing -/

section Writing

variable (crc : List UInt8 → UInt32) {w w' : WalWriter} {v : List (List UInt8)}

theorem extraLen_cases (pos : Nat) {len : Nat} (hpos : 0 < len) (hlen : len ≤ mapSize) :
    (extraLen pos len = 0 ∧ offset pos = offset (pos + len - 1)) ∨
      (pos + extraLen pos len = nextStartOffset pos ∧ mapSize < pos - offset pos + len) := by
  by_cases hsame : offset pos = offset (pos + len - 1)
  · exact .inl ⟨by simp [extraLen, hsame], hsame⟩
  · rw [extraLen, if_pos hsame]
    simp only [offset, nextStartOffset, mapSize] at *
    omega

def WalWriter.AtEnd (w : WalWriter) : Prop := w.pos = w.file.length

theorem writev_spec (tag : Tag) (hw : w.AtEnd) (hv : v.flatten.length ≤ maxEntrySize) :
    ∃ position w', w.writev crc tag v = some (position, w') ∧ w'.AtEnd ∧
      (∃ more, w'.file = w.file ++ more) ∧ Stored crc w'.file ⟨position, tag, v.flatten⟩ ∧
      Follows w'.file w.pos ⟨position, tag, v.flatten⟩ ∧
      Entry.stop ⟨position, tag, v.flatten⟩ = w'.pos := by
  have hsum : (v.map List.length).sum = v.flatten.length := List.length_flatten.symm
  have hlen : v.flatten.length + headerLenBytes ≤ mapSize := by
    rw [maxEntrySize] at hv
    have hheader : headerLenBytes ≤ mapSize := by decide
    omega
  have hpos : 0 < v.flatten.length + headerLenBytes := by simp [headerLenBytes]
  have hsmall : v.flatten.length + headerLenBytes ≤ 2 ^ 32 - 1 := hlen.trans (by decide)
  obtain ⟨header, hheader⟩ : ∃ header,
      combineHeader (crc v.flatten).toNat (v.flatten.length + headerLenBytes) tag = some header :=
    ⟨_, if_pos hsmall⟩
  have hcases := extraLen_cases w.pos hpos hlen
  generalize hextra : extraLen w.pos (v.flatten.length + headerLenBytes) = extra at hcases
  have hbytes : w.file ++ (List.replicate extra 0 ++ Bytes.toLe headerLenBytes header ++ v.flatten) =
      (w.file ++ List.replicate extra 0) ++ (Bytes.toLe headerLenBytes header ++ v.flatten) ++ [] := by
    simp only [List.append_assoc, List.append_nil]
  refine ⟨w.pos + extra, ⟨w.file ++ (List.replicate extra 0 ++ Bytes.toLe headerLenBytes header ++
    v.flatten), w.pos + extra + (v.flatten.length + headerLenBytes)⟩, ?_, ?_, ⟨_, rfl⟩, ?_, ?_, rfl⟩
  · simp only [WalWriter.writev, hsum, not_true_eq_false, if_false, hlen, hheader, hextra,
      List.length_replicate, Option.bind_eq_bind, Option.bind_some]
  · simp only [WalWriter.AtEnd, List.length_append, List.length_replicate, Bytes.length_toLe]
    rw [WalWriter.AtEnd] at hw
    omega
  · refine ⟨?_, header, w.file ++ List.replicate extra 0, [], hheader, ?_, hbytes⟩
    · dsimp only [Entry.stop]
      rcases hcases with ⟨rfl, hsame⟩ | ⟨hstart, -⟩
      · exact hsame
      · rw [hstart]
        simp only [offset, nextStartOffset, mapSize] at hlen ⊢
        omega
    · rw [List.length_append, List.length_replicate]
      exact congrArg (· + extra) hw.symm
  · rcases hcases with ⟨rfl, -⟩ | ⟨hstart, hcross⟩
    · exact .direct (Nat.add_zero _)
    · refine .padded hstart hcross ⟨w.file, Bytes.toLe headerLenBytes header ++ v.flatten, hw.symm, ?_⟩
      simp only [Nat.add_sub_cancel_left, List.append_assoc]

theorem run_spec {ops : List WalOp} (hw : w.AtEnd)
    (hops : ∀ op ∈ ops, ∀ x ∈ op.written, x.2.length ≤ maxEntrySize) :
    ∃ es w', w.run crc ops = some (es, w') ∧ w'.AtEnd ∧ (∃ more, w'.file = w.file ++ more) ∧
      es.map (fun e => (e.tag, e.data)) = ops.filterMap WalOp.written ∧
      Chain crc w'.file w.pos es w'.pos := by
  induction ops generalizing w with
  | nil => exact ⟨[], w, rfl, hw, ⟨[], (List.append_nil _).symm⟩, rfl, rfl⟩
  | cons op ops ih =>
    rw [List.forall_mem_cons] at hops
    cases op with
    | reopen =>
      obtain ⟨es, w', hrun, hend, hfile, hes, hchain⟩ := ih (w := WalWriter.open w.file) rfl hops.2
      rw [show (WalWriter.open w.file).pos = w.pos from hw.symm] at hchain
      exact ⟨es, w', hrun, hend, hfile, hes, hchain⟩
    | writev tag v =>
      obtain ⟨position, w₁, hwrite, hend₁, ⟨more₁, hfile₁⟩, hstored, hfollows, hstop⟩ :=
        writev_spec crc tag hw (hops.1 _ rfl)
      obtain ⟨es, w', hrun, hend, ⟨more, hfile⟩, hes, hchain⟩ := ih hend₁ hops.2
      refine ⟨⟨position, tag, v.flatten⟩ :: es, w', ?_, hend, ⟨more₁ ++ more, ?_⟩, ?_, ?_, ?_, ?_⟩
      · simp only [WalWriter.run, hwrite, hrun, Option.bind_eq_bind, Option.bind_some]
      · rw [hfile, hfile₁, List.append_assoc]
      · rw [List.map_cons, hes]
        rfl
      · rw [hfile]
        exact hstored.append more
      · rw [hfile]
        exact hfollows.append more
      · rw [hstop]
        exact hchain

/-- A log that is written from an empty file: where its entries stand, and whether they can be
iterated. -/
theorem run_chain {ops : List WalOp}
    (hops : ∀ op ∈ ops, ∀ x ∈ op.written, x.2.length ≤ maxEntrySize) :
    ∃ es w, (WalWriter.open []).run crc ops = some (es, w) ∧
      es.map (fun e => (e.tag, e.data)) = ops.filterMap WalOp.written ∧
      Chain crc w.file 0 es w.pos ∧
      ((∀ e ∈ es.dropLast, Room e.stop) → iterUntil crc w = some es) ∧
      (¬ (∀ e ∈ es.dropLast, Room e.stop) → iterUntil crc w = none) := by
  obtain ⟨es, w, hrun, -, -, hes, hchain⟩ := run_spec crc (w := WalWriter.open []) rfl hops
  have hfuel : es.length < w.pos + 1 := by
    have hle := hchain.add_length_le
    omega
  refine ⟨es, w, hrun, hes, hchain, ?_⟩
  rw [← rooms_iff (p := 0) (by decide)]
  exact iterate_of_chain hchain hfuel

theorem room_iff {p : Nat} : Room p ↔ p % mapSize ≤ mapSize - headerLenBytes := by
  rw [Room, offset, mapSize, headerLenBytes]
  omega

/-- In a log that is written from an empty file, with or without being reopened, every entry can be
read at its position; the iterator yields exactly the entries, in order, if and only if no entry but
the last ends so near to the end of a mapping that no header fits. -/
theorem log_reads_back_iff (ops : List WalOp)
    (hops : ∀ op ∈ ops, ∀ x ∈ op.written, x.2.length ≤ maxEntrySize) :
    ∃ es w, (WalWriter.open []).run crc ops = some (es, w) ∧
      es.map (fun e => (e.tag, e.data)) = ops.filterMap WalOp.written ∧
      (∀ e ∈ es, read crc w.file e.position = some (e.tag, e.data)) ∧
      (iterUntil crc w = some es ↔
        ∀ e ∈ es.dropLast, e.stop % mapSize ≤ mapSize - headerLenBytes) := by
  obtain ⟨es, w, hrun, hes, hchain, hyields, hpanics⟩ := run_chain crc hops
  refine ⟨es, w, hrun, hes, fun e he => ?_, ?_⟩
  · rw [read, (hchain.stored e he).tryRead_eq]
    rfl
  · simp only [← room_iff]
    refine ⟨fun hiter => ?_, hyields⟩
    by_contra hroom
    rw [hpanics hroom] at hiter
    exact nomatch hiter

end Writing

/-! ## An entry that ends near the end of a mapping -/

/-- An entry that leaves eight bytes of the first mapping, and an empty entry behind it. -/
def nearlyFull : List WalOp := [.writev 1 [List.replicate (mapSize - 24) 0], .writev 2 []]

theorem nearlyFull_fits : ∀ op ∈ nearlyFull, ∀ x ∈ op.written, x.2.length ≤ maxEntrySize := by
  simp only [nearlyFull, WalOp.written, List.forall_mem_cons, Option.mem_def, Option.some.injEq,
    forall_eq', List.flatten_cons, List.flatten_nil, List.append_nil, List.length_replicate]
  exact ⟨by decide, by decide, nofun⟩

/-- Both entries are written, and the iterator panics. -/
theorem nearlyFull_not_iterated :
    ∃ es w, (WalWriter.open []).run (fun _ => 0) nearlyFull = some (es, w) ∧ es.length = 2 ∧
      iterUntil (fun _ => 0) w = none := by
  obtain ⟨es, w, hrun, hes, hchain, -, hpanics⟩ := run_chain (fun _ => 0) nearlyFull_fits
  have hlen : es.length = 2 := by
    rw [← List.length_map, hes]
    rfl
  refine ⟨es, w, hrun, hlen, hpanics fun hrooms => ?_⟩
  obtain ⟨e, e', rfl⟩ := List.length_eq_two.mp hlen
  have hdata : e.data.length = mapSize - 24 := by
    have hfirst : e.data = List.replicate (mapSize - 24) 0 ++ [] :=
      congrArg Prod.snd (List.cons.inj hes).1
    rw [hfirst, List.append_nil, List.length_replicate]
  have hroom : Room e.stop := hrooms e List.mem_cons_self
  rw [room_iff, Entry.stop, hdata] at hroom
  -- The first entry stands at the start of the file.
  cases hchain.2.1 with
  | direct position =>
    rw [position] at hroom
    exact absurd hroom (by decide)
  | padded position crosses zeros =>
    rw [hdata] at crosses
    exact absurd crosses (by decide)

def twoEntries : List WalOp := [.writev 7 [[1, 2], [3]], .reopen, .writev 8 []]

theorem twoEntries_read_back :
    (∀ op ∈ twoEntries, ∀ x ∈ op.written, x.2.length ≤ maxEntrySize) ∧
      ∃ w, (WalWriter.open []).run (fun _ => 0) twoEntries =
          some ([⟨0, 7, [1, 2, 3]⟩, ⟨19, 8, []⟩], w) ∧
        read (fun _ => 0) w.file 0 = some (7, [1, 2, 3]) ∧ read (fun _ => 0) w.file 19 = some (8, []) ∧
        iterUntil (fun _ => 0) w = some [⟨0, 7, [1, 2, 3]⟩, ⟨19, 8, []⟩] := by
  have hfits : ∀ op ∈ twoEntries, ∀ x ∈ op.written, x.2.length ≤ maxEntrySize := by
    simp [twoEntries, WalOp.written, maxEntrySize, mapSize, headerLenBytes]
  refine ⟨hfits, ?_⟩
  obtain ⟨es, w, hrun, -, hread, hiter⟩ := log_reads_back_iff (fun _ => 0) twoEntries hfits
  have hes : some es = some [⟨0, 7, [1, 2, 3]⟩, ⟨19, 8, []⟩] := congrArg (Option.map Prod.fst) hrun.symm
  obtain rfl := Option.some.inj hes
  refine ⟨w, hrun, hread ⟨0, 7, [1, 2, 3]⟩ (by simp), hread ⟨19, 8, []⟩ (by simp), hiter.mpr ?_⟩
  simp [Entry.stop, mapSize, headerLenBytes]

end CongestionControl.Mysticeti.Wal
