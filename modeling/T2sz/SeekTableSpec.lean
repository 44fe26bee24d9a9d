import T2sz.SeekTable
import Mathlib.Tactic.IntervalCases

/-!
The seek table is written as a whole or not at all, and reading undoes writing.
-/

namespace T2sz

section Words

variable {host : Host} {x : UInt32} {file before after : List UInt8}

/-- Byte `i` of a swapped word is byte `3 - i` of the word. -/
theorem swap_bytes (x : UInt32) :
    (swap x).toUInt8 = (x >>> 24).toUInt8 ∧ (swap x >>> 8).toUInt8 = (x >>> 16).toUInt8 ∧
      (swap x >>> 16).toUInt8 = (x >>> 8).toUInt8 ∧ (swap x >>> 24).toUInt8 = x.toUInt8 := by
  refine ⟨?_, ?_, ?_, ?_⟩
  all_goals
    apply UInt8.toBitVec_inj.mp
    apply BitVec.eq_of_getLsbD_eq
    intro i hi
    simp [swap]
    interval_cases i <;> simp

/-- The bytes in the file are the same on every host. -/
theorem writeLE32_eq (host : Host) (x : UInt32) :
    writeLE32 host x =
      [x.toUInt8, (x >>> 8).toUInt8, (x >>> 16).toUInt8, (x >>> 24).toUInt8] := by
  cases hl : host.littleEndian with
  | true => simp [writeLE32, Host.memory, hl]
  | false =>
      obtain ⟨h0, h1, h2, h3⟩ := swap_bytes x
      simp [writeLE32, Host.memory, hl, h0, h1, h2, h3]

theorem length_writeLE32 (host : Host) (x : UInt32) : (writeLE32 host x).length = 4 := by
  rw [writeLE32_eq]
  rfl

theorem readByte_append (before after : List UInt8) (i : Nat) :
    readByte (before ++ after) (before.length + i) = readByte after i := by
  rw [readByte, readByte, List.getD_eq_getElem?_getD, List.getD_eq_getElem?_getD,
    List.getElem?_append_right (Nat.le_add_right _ _), Nat.add_sub_cancel_left]

/-- A word reads back where it was written. -/
theorem readLE32_written (hfile : file = before ++ (writeLE32 host x ++ after)) :
    readLE32 file before.length = x.toNat := by
  have hx := x.toNat_lt
  have hfirst := readByte_append before (writeLE32 host x ++ after) 0
  rw [Nat.add_zero] at hfirst
  rw [hfile, readLE32, hfirst, readByte_append, readByte_append, readByte_append, writeLE32_eq]
  simp [readByte, Nat.shiftRight_eq_div_pow]
  omega

end Words

/-! The array -/

section Growing

variable {host : Host} {needed : Nat}

theorem growCap_spec {w : Nat} (hw : 2 ^ 29 ≤ 2 ^ w) (hneeded : needed ≤ 2 ^ 27) (fuel : Nat)
    {cap : Nat} (hpos : 0 < cap) (hfuel : needed ≤ cap + fuel) :
    needed ≤ growCap w needed fuel cap ∧ cap ≤ growCap w needed fuel cap ∧
      growCap w needed fuel cap ≤ max cap (2 * needed) := by
  induction fuel generalizing cap with
  | zero => exact ⟨hfuel, Nat.le_refl _, Nat.le_max_left _ _⟩
  | succ fuel ih =>
      simp only [growCap]
      split
      case isTrue hlt =>
        have hmod : cap * 2 % 2 ^ w = cap * 2 := Nat.mod_eq_of_lt (by omega)
        rw [hmod]
        obtain ⟨hge, hgrown, hle⟩ := @ih (cap * 2) (by omega) (by omega)
        exact ⟨hge, by omega, by omega⟩
      case isFalse hge => exact ⟨by omega, Nat.le_refl _, Nat.le_max_left _ _⟩

/-- An array that is big enough for its entries, and for twice the largest number
of frames. -/
structure SeekTable.Wf (t : SeekTable) : Prop where
  array : t.seekTable.length = t.seekTableCap
  len_le : t.seekTableLen ≤ t.seekTableCap
  cap_le : t.seekTableCap ≤ 2 ^ 28

theorem Host.word_le (host : Host) : 2 ^ 32 ≤ 2 ^ host.sizeBits := by
  cases host.bits with
  | inl h => rw [h]
  | inr h =>
      rw [h]
      exact Nat.pow_le_pow_right (by decide) (by decide)

/-- Growth keeps every entry and makes room for one more. -/
theorem seekTableEnsureCap_spec (hneeded : needed ≤ 2 ^ 27) {t s : SeekTable}
    (h : seekTableEnsureCap host needed t = .ok s) (wf : t.Wf) :
    s.Wf ∧ needed ≤ s.seekTableCap ∧
      s.seekTable.take t.seekTableLen = t.seekTable.take t.seekTableLen ∧
      s.seekTableLen = t.seekTableLen ∧ s.skipSeekTable = t.skipSeekTable ∧
      s.frameCount = t.frameCount := by
  simp only [seekTableEnsureCap] at h
  split at h
  case isTrue hroom =>
    cases h
    exact ⟨wf, hroom, rfl, rfl, rfl, rfl⟩
  case isFalse hfull =>
    have hword := host.word_le
    have hcap := wf.cap_le
    have hlen := wf.len_le
    obtain ⟨cap, hstart⟩ :
        ∃ cap, (if t.seekTableCap ≠ 0 then t.seekTableCap else 1024) = cap := ⟨_, rfl⟩
    have hpos : 0 < cap ∧ t.seekTableCap ≤ cap ∧ cap ≤ 2 ^ 28 := by
      rw [← hstart]
      split <;> omega
    obtain ⟨hge, hgrown, hle⟩ := @growCap_spec needed host.sizeBits (by omega) hneeded needed cap
      hpos.1 (by omega)
    rw [hstart, Nat.mod_eq_of_lt (by omega), Nat.mul_div_cancel _ (by decide)] at h
    generalize growCap host.sizeBits needed needed cap = newCap at h hge hgrown hle
    split at h
    case h_1 => cases h
    case h_2 fresh _ =>
      cases h
      refine ⟨⟨?_, ?_, ?_⟩, hge, ?_, rfl, rfl, rfl⟩
      · simp
      · exact Nat.le_trans hlen (Nat.le_trans hpos.2.1 hgrown)
      · exact Nat.le_trans hle (by omega)
      · apply List.ext_getElem
        · simp [wf.array]
          omega
        · intro i hi _
          have hlt : i < t.seekTable.length := by
            simp [wf.array] at hi ⊢
            omega
          simp [List.getD_eq_getElem?_getD, hlt]

end Growing

/-- The entry that is recorded for a pair of sizes. -/
def entryOf (sizes : Nat × Nat) : SeekTableEntry :=
  ⟨UInt32.ofNat sizes.1, UInt32.ofNat sizes.2⟩

/-- What the calls for `adds` leave. -/
structure Records (host : Host) (skip : Bool) (adds : List (Nat × Nat)) (t : SeekTable) : Prop
    extends t.Wf where
  count : t.frameCount = adds.length % 2 ^ host.sizeBits
  skipped : t.skipSeekTable = (skip || decide (2 ^ 27 ≤ adds.length))
  len : t.seekTableLen = if skip then 0 else min adds.length 0x7FFFFFF
  entries : t.seekTable.take t.seekTableLen = (adds.take t.seekTableLen).map entryOf

section Adding

variable {host : Host} {skip : Bool} {adds : List (Nat × Nat)} {t s : SeekTable}

theorem records_init (host : Host) (skip : Bool) : Records host skip [] (.init skip) := by
  refine ⟨⟨rfl, Nat.le_refl _, Nat.zero_le _⟩, ?_, ?_, ?_, rfl⟩
  · rw [List.length_nil, Nat.zero_mod]
    rfl
  · simp [SeekTable.init]
  · simp [SeekTable.init]

theorem Records.len_le_calls (h : Records host skip adds t) : t.seekTableLen ≤ adds.length := by
  rw [h.len]
  split <;> omega

/-- A call that records nothing leaves the entries alone. -/
theorem Records.entries_append (h : Records host skip adds t) (p : Nat × Nat) :
    t.seekTable.take t.seekTableLen = ((adds ++ [p]).take t.seekTableLen).map entryOf := by
  rw [List.take_append_of_le_length h.len_le_calls, h.entries]

/-- The array with one more entry. -/
theorem take_set_succ {l : List SeekTableEntry} {n : Nat} (hn : n < l.length)
    (e : SeekTableEntry) : (l.set n e).take (n + 1) = l.take n ++ [e] := by
  rw [List.take_add_one, List.take_set_of_le (Nat.le_refl n), List.getElem?_set_self hn,
    Option.toList_some]

theorem seekTableAdd_spec (h : Records host skip adds t) {compressedSize decompressedSize : Nat}
    (hadd : seekTableAdd host t compressedSize decompressedSize = .ok s) :
    Records host skip (adds ++ [(compressedSize, decompressedSize)]) s := by
  have hword := host.word_le
  have hlen := h.len
  have hskipped := h.skipped
  have hkept := h.entries_append (compressedSize, decompressedSize)
  have hlength : (adds ++ [(compressedSize, decompressedSize)]).length = adds.length + 1 := by
    rw [List.length_append, List.length_singleton]
  have hcount : uadd host.sizeBits t.frameCount 1 = (adds.length + 1) % 2 ^ host.sizeBits := by
    rw [h.count, uadd, Nat.mod_add_mod]
  have hsum : uadd host.sizeBits t.seekTableLen 1 = t.seekTableLen + 1 := by
    apply uadd_eq
    split at hlen <;> omega
  rw [seekTableAdd, hsum, hcount] at hadd
  cases hskip : t.skipSeekTable with
  | true =>
      rw [if_pos hskip] at hadd
      cases hadd
      rw [hskip] at hskipped
      refine ⟨⟨h.array, h.len_le, h.cap_le⟩, by rw [hlength], ?_, ?_, hkept⟩
      · rw [hskip, hlength]
        cases skip <;> simp at hskipped ⊢
        omega
      · rw [hlen, hlength]
        cases skip <;> simp at hskipped ⊢
        omega
  | false =>
      rw [hskip] at hskipped
      have hinit : skip = false ∧ adds.length < 2 ^ 27 := by simpa using hskipped.symm
      rw [hinit.1, if_neg Bool.false_ne_true] at hlen
      rw [hskip, if_neg Bool.false_ne_true] at hadd
      split at hadd
      case isTrue hfull =>
        cases hadd
        refine ⟨⟨h.array, h.len_le, h.cap_le⟩, by rw [hlength], ?_, ?_, hkept⟩
        · simp [hlength]
          omega
        · rw [hlen, hlength, hinit.1, if_neg Bool.false_ne_true]
          omega
      case isFalse hroom =>
        simp only [Except.map] at hadd
        split at hadd
        case h_1 => cases hadd
        case h_2 grown hgrown =>
          cases hadd
          have hneeded : t.seekTableLen + 1 ≤ 2 ^ 27 := by omega
          obtain ⟨hwf, hcap, htake, hsame, hskipGrown, hcountGrown⟩ :=
            seekTableEnsureCap_spec hneeded hgrown ⟨h.array, h.len_le, h.cap_le⟩
          have hall : t.seekTableLen = adds.length := by omega
          have hfew : ¬ 2 ^ 27 ≤ adds.length + 1 := by
            rw [← hall]
            exact hroom
          have hnext : t.seekTableLen + 1 = min (adds.length + 1) 0x7FFFFFF := by
            rw [Nat.min_eq_left (by omega), hall]
          have hidx : t.seekTableLen < grown.seekTable.length := by
            rw [hwf.array]
            exact hcap
          refine ⟨⟨?_, hcap, hwf.cap_le⟩, ?_, ?_, ?_, ?_⟩
          · rw [List.length_set]
            exact hwf.array
          · rw [hlength]
            exact hcountGrown
          · rw [hlength, hinit.1, show grown.skipSeekTable = false from hskipGrown]
            simp only [Bool.false_or, decide_eq_false hfew]
          · rw [hlength, hinit.1, if_neg Bool.false_ne_true]
            exact hnext
          · have hkeep : grown.seekTable.take t.seekTableLen = t.seekTable.take t.seekTableLen :=
              htake
            rw [take_set_succ hidx, hkeep, h.entries, hall, List.take_length, ← hlength,
              List.take_length, List.map_append]
            rfl

/-- A run of calls, from any point of it on. -/
theorem seekTableAddAll_spec {more : List (Nat × Nat)} (h : Records host skip adds t)
    (hrun : seekTableAddAll host t more = .ok s) : Records host skip (adds ++ more) s := by
  induction more generalizing adds t with
  | nil =>
      cases hrun
      rwa [List.append_nil]
  | cons p more ih =>
      rw [seekTableAddAll] at hrun
      split at hrun
      case h_1 => cases hrun
      case h_2 u hadd =>
        have hstep := ih (seekTableAdd_spec h hadd) hrun
        rwa [List.append_assoc] at hstep

/-- As long as there is memory the calls return. -/
theorem seekTableAddAll_ok (hmemory : ∀ n, ∃ fresh, host.realloc n = some fresh) (t : SeekTable)
    (more : List (Nat × Nat)) : ∃ s, seekTableAddAll host t more = .ok s := by
  induction more generalizing t with
  | nil => exact ⟨t, rfl⟩
  | cons p more ih =>
      have hadd : ∃ u, seekTableAdd host t p.1 p.2 = .ok u := by
        simp only [seekTableAdd]
        split
        · exact ⟨_, rfl⟩
        · split
          · exact ⟨_, rfl⟩
          · simp only [seekTableEnsureCap]
            split
            · exact ⟨_, rfl⟩
            · obtain ⟨fresh, hfresh⟩ := hmemory (growCap host.sizeBits
                (uadd host.sizeBits t.seekTableLen 1) (uadd host.sizeBits t.seekTableLen 1)
                (if t.seekTableCap ≠ 0 then t.seekTableCap else 1024) * 8 % 2 ^ host.sizeBits / 8)
              rw [hfresh]
              exact ⟨_, rfl⟩
      obtain ⟨u, hu⟩ := hadd
      obtain ⟨s, hs⟩ := ih u
      exact ⟨s, by rw [seekTableAddAll, hu]; exact hs⟩

/-- A run gets past every one of its calls. -/
theorem seekTableAddAll_take {more : List (Nat × Nat)} (hrun : seekTableAddAll host t more = .ok s)
    (k : Nat) : ∃ u, seekTableAddAll host t (more.take k) = .ok u := by
  induction more generalizing t k with
  | nil => exact ⟨t, by rw [List.take_nil, seekTableAddAll]⟩
  | cons p more ih =>
      cases k with
      | zero => exact ⟨t, rfl⟩
      | succ k =>
          rw [seekTableAddAll] at hrun
          split at hrun
          case h_1 => cases hrun
          case h_2 u hadd =>
            obtain ⟨v, hv⟩ := ih hrun k
            refine ⟨v, ?_⟩
            rw [List.take_succ_cons, seekTableAddAll, hadd]
            exact hv

end Adding

/-! The file -/

def pairBytes (host : Host) (p : Nat × Nat) : List UInt8 :=
  writeLE32 host (UInt32.ofNat p.1) ++ writeLE32 host (UInt32.ofNat p.2)

/-- The skippable frame for the pairs. -/
def tableBytes (host : Host) (adds : List (Nat × Nat)) : List UInt8 :=
  writeLE32 host 0x184D2A5E ++ (writeLE32 host (UInt32.ofNat adds.length * 8 + 9) ++
    (adds.flatMap (pairBytes host) ++
      (writeLE32 host (UInt32.ofNat adds.length) ++ ([0] ++ writeLE32 host 0x8F92EAB1))))

section Reading

variable {host : Host} {adds : List (Nat × Nat)} {t : SeekTable}

theorem length_pairs (host : Host) (adds : List (Nat × Nat)) :
    (adds.flatMap (pairBytes host)).length = 8 * adds.length := by
  induction adds with
  | nil => rfl
  | cons p adds ih =>
      rw [List.flatMap_cons, List.length_append, ih, pairBytes, List.length_append,
        length_writeLE32, length_writeLE32, List.length_cons]
      omega

theorem length_tableBytes (host : Host) (adds : List (Nat × Nat)) :
    (tableBytes host adds).length = 8 * adds.length + 17 := by
  simp only [tableBytes, List.length_append, length_writeLE32, length_pairs, List.length_singleton]
  omega

theorem range_flatMap_getD {α β : Type} (l : List α) (d : α) (f : α → List β) {n : Nat}
    (hn : n ≤ l.length) :
    (List.range n).flatMap (fun i => f (l.getD i d)) = (l.take n).flatMap f := by
  have hmap : (List.range n).map (fun i => l.getD i d) = l.take n := by
    apply List.ext_getElem
    · simp [hn]
    · intro i hi _
      have hlt : i < l.length := by
        simp at hi
        omega
      simp [List.getD_eq_getElem?_getD, hlt]
  rw [← hmap, List.flatMap_map]

theorem pairs_flatten (host : Host) (adds : List (Nat × Nat)) :
    ((adds.map entryOf).flatMap fun e =>
      [writeLE32 host e.compressedSize, writeLE32 host e.decompressedSize]).flatten =
      adds.flatMap (pairBytes host) := by
  induction adds with
  | nil => rfl
  | cons p adds ih =>
      rw [List.map_cons, List.flatMap_cons, List.flatten_append, ih, List.flatMap_cons]
      simp only [List.flatten_cons, List.flatten_nil, List.append_nil, pairBytes, entryOf]

/-- A table that was never disabled is written with all its entries. -/
theorem writeSeekTable_flatten (h : Records host false adds t) (hfew : adds.length < 2 ^ 27) :
    (writeSeekTable host t).flatten = tableBytes host adds := by
  have hlen : t.seekTableLen = adds.length := by
    rw [h.len, if_neg Bool.false_ne_true]
    omega
  have hroom : adds.length ≤ t.seekTable.length := by
    rw [← hlen, h.array]
    exact h.len_le
  have hentries := h.entries
  rw [hlen, List.take_length] at hentries
  simp only [writeSeekTable, hlen]
  rw [range_flatMap_getD t.seekTable default
    (fun e => [writeLE32 host e.compressedSize, writeLE32 host e.decompressedSize]) hroom, hentries]
  simp only [List.flatten_append, List.flatten_cons, List.flatten_nil, List.append_nil,
    List.append_assoc, tableBytes]
  rw [pairs_flatten]
  rfl

theorem toNat_ofNat_of_lt {n : Nat} (h : n < 2 ^ 32) : (UInt32.ofNat n).toNat = n := by
  rw [UInt32.toNat_ofNat', Nat.mod_eq_of_lt h]

/-- An entry reads back from its place in the table. -/
theorem readLE32_entry {before after : List UInt8}
    (hadds : ∀ p ∈ adds, p.1 < 2 ^ 32 ∧ p.2 < 2 ^ 32) {i : Nat} (hi : i < adds.length) :
    (readLE32 (before ++ (adds.flatMap (pairBytes host) ++ after)) (before.length + 8 * i),
      readLE32 (before ++ (adds.flatMap (pairBytes host) ++ after))
        (before.length + 8 * i + 4)) = adds[i] := by
  have hsplit : adds.flatMap (pairBytes host) = (adds.take i).flatMap (pairBytes host) ++
      (pairBytes host adds[i] ++ (adds.drop (i + 1)).flatMap (pairBytes host)) := by
    rw [← List.flatMap_cons, ← List.drop_eq_getElem_cons hi, ← List.flatMap_append,
      List.take_append_drop]
  have hlen : (adds.take i).length = i := by
    rw [List.length_take]
    omega
  obtain ⟨hfst, hsnd⟩ := hadds adds[i] (List.getElem_mem hi)
  have hfile : before ++ (adds.flatMap (pairBytes host) ++ after) =
      (before ++ (adds.take i).flatMap (pairBytes host)) ++
        (writeLE32 host (UInt32.ofNat adds[i].1) ++ (writeLE32 host (UInt32.ofNat adds[i].2) ++
          ((adds.drop (i + 1)).flatMap (pairBytes host) ++ after))) := by
    rw [hsplit, pairBytes]
    simp only [List.append_assoc]
  have hfirst : before.length + 8 * i =
      (before ++ (adds.take i).flatMap (pairBytes host)).length := by
    rw [List.length_append, length_pairs, hlen]
  have hsecond : before.length + 8 * i + 4 = (before ++ (adds.take i).flatMap (pairBytes host) ++
      writeLE32 host (UInt32.ofNat adds[i].1)).length := by
    rw [List.length_append, ← hfirst, length_writeLE32]
  apply Prod.ext
  · rw [hfirst]
    exact (readLE32_written hfile).trans (toNat_ofNat_of_lt hfst)
  · rw [← List.append_assoc _ (writeLE32 host (UInt32.ofNat adds[i].1))] at hfile
    rw [hsecond]
    exact (readLE32_written hfile).trans (toNat_ofNat_of_lt hsnd)

/-- Reading back what was written. -/
theorem seekTableEntries_written (host : Host) (frames : List UInt8)
    (hadds : ∀ p ∈ adds, p.1 < 2 ^ 32 ∧ p.2 < 2 ^ 32) (hfew : adds.length < 2 ^ 27) :
    seekTableEntries (frames ++ tableBytes host adds) = some adds := by
  have hlen := length_tableBytes host adds
  have hfile :
      (frames ++ tableBytes host adds).length = frames.length + (8 * adds.length + 17) := by
    rw [List.length_append, hlen]
  have hnum : (UInt32.ofNat adds.length).toNat = adds.length := toNat_ofNat_of_lt (by omega)
  have hsize : (UInt32.ofNat adds.length * 8 + 9).toNat = adds.length * 8 + 9 := by
    rw [UInt32.toNat_add, UInt32.toNat_mul, hnum]
    simp
    omega
  have hmagic : readLE32 (frames ++ tableBytes host adds) frames.length = 0x184D2A5E :=
    readLE32_written rfl
  have hfield : readLE32 (frames ++ tableBytes host adds) (frames.length + 4) =
      adds.length * 8 + 9 := by
    rw [← hsize, show frames.length + 4 = (frames ++ writeLE32 host 0x184D2A5E).length by
      rw [List.length_append, length_writeLE32]]
    exact readLE32_written (by rw [tableBytes, List.append_assoc])
  obtain ⟨body, hbody⟩ : ∃ body, body = frames ++ (writeLE32 host 0x184D2A5E ++
      (writeLE32 host (UInt32.ofNat adds.length * 8 + 9) ++ adds.flatMap (pairBytes host))) :=
    ⟨_, rfl⟩
  have hbodyLen : body.length = frames.length + 8 * adds.length + 8 := by
    rw [hbody]
    simp only [List.length_append, length_writeLE32, length_pairs]
    omega
  have hfooter : frames ++ tableBytes host adds = body ++
      (writeLE32 host (UInt32.ofNat adds.length) ++ ([0] ++ writeLE32 host 0x8F92EAB1)) := by
    rw [hbody, tableBytes]
    simp only [List.append_assoc]
  have hframes : readLE32 (frames ++ tableBytes host adds) body.length = adds.length := by
    rw [← hnum]
    exact readLE32_written hfooter
  have hdescriptor : readByte (frames ++ tableBytes host adds) (body.length + 4) = 0 := by
    rw [hfooter, readByte_append, writeLE32_eq]
    rfl
  have hseekable : readLE32 (frames ++ tableBytes host adds) (body.length + 5) = 0x8F92EAB1 := by
    rw [hfooter, show body.length + 5 =
      (body ++ (writeLE32 host (UInt32.ofNat adds.length) ++ [0])).length by
        simp only [List.length_append, length_writeLE32, List.length_singleton]]
    exact @readLE32_written host 0x8F92EAB1 _ _ []
      (by simp only [List.append_assoc, List.append_nil])
  have hentries : (List.range adds.length).map (fun i =>
      (readLE32 (frames ++ tableBytes host adds) (frames.length + 8 + 8 * i),
        readLE32 (frames ++ tableBytes host adds) (frames.length + 8 + 8 * i + 4))) = adds := by
    apply List.ext_getElem
    · simp
    · intro i hi hi'
      have hstart : frames.length + 8 = (frames ++ (writeLE32 host 0x184D2A5E ++
          writeLE32 host (UInt32.ofNat adds.length * 8 + 9))).length := by
        simp only [List.length_append, length_writeLE32]
      have hentry := @readLE32_entry host adds (frames ++ (writeLE32 host 0x184D2A5E ++
        writeLE32 host (UInt32.ofNat adds.length * 8 + 9)))
        (writeLE32 host (UInt32.ofNat adds.length) ++ ([0] ++ writeLE32 host 0x8F92EAB1)) hadds
        i hi'
      rw [← hstart] at hentry
      simp only [List.append_assoc] at hentry
      simpa [tableBytes] using hentry
  have h9 : (frames ++ tableBytes host adds).length - 9 = body.length := by omega
  have h5 : (frames ++ tableBytes host adds).length - 5 = body.length + 4 := by omega
  have h4 : (frames ++ tableBytes host adds).length - 4 = body.length + 5 := by omega
  have hheader : (frames ++ tableBytes host adds).length - (adds.length * 8 + 17) =
      frames.length := by omega
  simp only [seekTableEntries, h9, h5, h4, hframes, hheader, hentries]
  rw [if_pos]
  exact ⟨by omega, hseekable, hdescriptor, by omega, hmagic, hfield⟩

end Reading

/-- The pairs in the part of the array that is in use. -/
def SeekTable.pairs (t : SeekTable) : List (Nat × Nat) :=
  (t.seekTable.take t.seekTableLen).map fun e =>
    (e.compressedSize.toNat, e.decompressedSize.toNat)

section Recorded

variable {host : Host} {skip : Bool} {adds : List (Nat × Nat)} {t : SeekTable}

theorem Records.pairs (h : Records host skip adds t)
    (hadds : ∀ p ∈ adds, p.1 < 2 ^ 32 ∧ p.2 < 2 ^ 32) :
    t.pairs = adds.take t.seekTableLen := by
  rw [SeekTable.pairs, h.entries, List.map_map]
  have hid : ∀ p ∈ adds.take t.seekTableLen,
      ((fun e : SeekTableEntry => (e.compressedSize.toNat, e.decompressedSize.toNat)) ∘ entryOf) p =
        id p := by
    intro p hp
    obtain ⟨hfst, hsnd⟩ := hadds p (List.mem_of_mem_take hp)
    simp only [Function.comp_apply, entryOf, toNat_ofNat_of_lt hfst, toNat_ofNat_of_lt hsnd, id_eq]
  rw [List.map_congr_left hid, List.map_id]

/-- The table is given up when `-j` asks for it or the frames are too many. -/
theorem Records.kept_iff (h : Records host skip adds t) :
    t.skipSeekTable = false ↔ skip = false ∧ adds.length < 2 ^ 27 := by
  rw [h.skipped, Bool.or_eq_false_iff, decide_eq_false_iff_not, Nat.not_le]

/-- A table that is kept has every frame. -/
theorem Records.len_of_kept (h : Records host skip adds t) (hkept : t.skipSeekTable = false) :
    t.seekTableLen = adds.length := by
  obtain ⟨hskip, hfew⟩ := h.kept_iff.mp hkept
  rw [h.len, hskip, if_neg Bool.false_ne_true]
  omega

theorem Records.cleanup_kept (h : Records host false adds t) (hfew : adds.length < 2 ^ 27)
    (frames : List UInt8) :
    cleanupCompression host t frames = frames ++ tableBytes host adds := by
  rw [cleanupCompression, tableWrites, h.kept_iff.mpr ⟨rfl, hfew⟩, if_pos (by decide),
    writeSeekTable_flatten h hfew]

theorem Records.cleanup_skipped (h : Records host skip adds t)
    (hmany : ¬ (skip = false ∧ adds.length < 2 ^ 27)) (frames : List UInt8) :
    cleanupCompression host t frames = frames := by
  have hskip : t.skipSeekTable = true := by
    rw [← Bool.not_eq_false, h.kept_iff]
    exact hmany
  rw [cleanupCompression, tableWrites, hskip, if_neg (by decide), List.flatten_nil,
    List.append_nil]

end Recorded

/-- The table is complete or absent, and reading undoes writing. -/
theorem seekTable_complete_or_absent (host : Host) (skip : Bool) (adds : List (Nat × Nat))
    (hadds : ∀ p ∈ adds, p.1 < 2 ^ 32 ∧ p.2 < 2 ^ 32) {t : SeekTable}
    (hrun : seekTableAddAll host (.init skip) adds = .ok t) :
    t.frameCount = adds.length % 2 ^ host.sizeBits ∧
      (∀ k ≤ adds.length, ∃ s, seekTableAddAll host (.init skip) (adds.take k) = .ok s ∧
        s.seekTableLen ≤ s.seekTableCap ∧ s.seekTable.length = s.seekTableCap ∧
        s.pairs = adds.take s.seekTableLen ∧
        (s.skipSeekTable = false → s.seekTableLen = k)) ∧
      ∀ frames, if skip = false ∧ adds.length < 2 ^ 27 then
          ∃ table, cleanupCompression host t frames = frames ++ table ∧
            table.length = 8 * adds.length + 17 ∧
            seekTableEntries (frames ++ table) = some adds
        else cleanupCompression host t frames = frames := by
  have hrecords := seekTableAddAll_spec (records_init host skip) hrun
  rw [List.nil_append] at hrecords
  refine ⟨hrecords.count, ?_, ?_⟩
  · intro k hk
    obtain ⟨s, hs⟩ := seekTableAddAll_take hrun k
    have hadded := seekTableAddAll_spec (records_init host skip) hs
    rw [List.nil_append] at hadded
    have hlength : (adds.take k).length = k := by
      rw [List.length_take]
      omega
    have hpairs := hadded.pairs fun p hp => hadds p (List.mem_of_mem_take hp)
    have hcalls := hadded.len_le_calls
    rw [hlength] at hcalls
    refine ⟨s, hs, hadded.len_le, hadded.array, ?_, ?_⟩
    · rw [hpairs, List.take_take, Nat.min_eq_left hcalls]
    · intro hkept
      rw [hadded.len_of_kept hkept, hlength]
  · intro frames
    split
    case isTrue hfew =>
      obtain ⟨rfl, hfew⟩ := hfew
      exact ⟨tableBytes host adds, hrecords.cleanup_kept hfew frames, length_tableBytes host adds,
        seekTableEntries_written host frames hadds hfew⟩
    case isFalse hmany => exact hrecords.cleanup_skipped hmany frames

/-- A host of either width whose memory does not run out. -/
def plainHost (sizeBits : Nat) (bits : sizeBits = 32 ∨ sizeBits = 64) : Host where
  sizeBits := sizeBits
  bits := bits
  littleEndian := true
  realloc _ := some fun _ => default

theorem plainHost_memory (sizeBits : Nat) (bits : sizeBits = 32 ∨ sizeBits = 64) (n : Nat) :
    ∃ fresh, (plainHost sizeBits bits).realloc n = some fresh := ⟨_, rfl⟩

/-- The sizes of four frames, the compressed ones first. -/
def fourFrames : List (Nat × Nat) := [(412, 2000), (380, 2000), (95, 608), (31, 1024)]

theorem seekTable_complete_or_absent_fourFrames :
    ∃ t, seekTableAddAll (plainHost 64 (.inr rfl)) (.init false) fourFrames = .ok t ∧
      t.frameCount = 4 % 2 ^ 64 ∧
      (∃ s, seekTableAddAll (plainHost 64 (.inr rfl)) (.init false) (fourFrames.take 3) = .ok s ∧
        s.pairs = fourFrames.take s.seekTableLen) ∧
      ∀ frames, ∃ table, cleanupCompression (plainHost 64 (.inr rfl)) t frames = frames ++ table ∧
        table.length = 8 * 4 + 17 ∧ seekTableEntries (frames ++ table) = some fourFrames := by
  obtain ⟨t, ht⟩ := seekTableAddAll_ok (plainHost_memory 64 (.inr rfl)) (.init false) fourFrames
  obtain ⟨hcount, hsteps, hfile⟩ :=
    seekTable_complete_or_absent (plainHost 64 (.inr rfl)) false fourFrames (by decide) ht
  obtain ⟨s, hs, -, -, hpairs, -⟩ := hsteps 3 (by decide)
  refine ⟨t, ht, hcount, ⟨s, hs, hpairs⟩, fun frames => ?_⟩
  have htable := hfile frames
  rwa [if_pos (by decide)] at htable

/-- The counter is a `size_t`: with 32 bits it is 0 again after `2 ^ 32` frames. -/
theorem frameCount_wraps :
    ∃ t, seekTableAddAll (plainHost 32 (.inl rfl)) (.init false) (List.replicate (2 ^ 32) (14, 1)) =
        .ok t ∧ t.frameCount = 0 ∧
      t.frameCount ≠ (List.replicate (2 ^ 32) ((14, 1) : Nat × Nat)).length := by
  obtain ⟨t, ht⟩ := seekTableAddAll_ok (plainHost_memory 32 (.inl rfl)) (.init false)
    (List.replicate (2 ^ 32) (14, 1))
  have hrecords := seekTableAddAll_spec (records_init (plainHost 32 (.inl rfl)) false) ht
  have hcount := hrecords.count
  rw [List.nil_append, List.length_replicate] at hcount
  have hzero : t.frameCount = 0 := hcount.trans (Nat.mod_self _)
  refine ⟨t, ht, hzero, ?_⟩
  rw [hzero, List.length_replicate]
  decide

end T2sz
