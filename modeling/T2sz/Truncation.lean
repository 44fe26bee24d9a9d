import T2sz.FrameSizes

/-!
A truncated archive is refused.

What the walk sees of an element lies inside the element, so on the first `k`
bytes of an archive it goes the same way as on the whole archive until an
element does not end within them.
-/

namespace T2sz

open Iteration

set_option maxRecDepth 4000

/-- The two inputs have their first `k` bytes in common. -/
structure SamePrefix (k : Nat) (a b : List UInt8) : Prop where
  take_eq : a.take k = b.take k
  le_left : k ≤ a.length
  le_right : k ≤ b.length

section Prefix

variable {k : Nat} {a b : List UInt8}

theorem samePrefix_take (h : k ≤ a.length) : SamePrefix k a (a.take k) :=
  ⟨by simp, h, by simp [h]⟩

theorem SamePrefix.symm (h : SamePrefix k a b) : SamePrefix k b a :=
  ⟨h.take_eq.symm, h.le_right, h.le_left⟩

theorem SamePrefix.chunk (h : SamePrefix k a b) {pos n : Nat} (hn : pos + n ≤ k) :
    (a.drop pos).take n = (b.drop pos).take n := by
  have hcut : ∀ l : List UInt8, (l.drop pos).take n = ((l.take k).drop pos).take n := by
    intro l
    rw [List.drop_take, List.take_take, Nat.min_eq_left (by omega)]
  rw [hcut a, hcut b, h.take_eq]

theorem SamePrefix.getD (h : SamePrefix k a b) {i : Nat} (hi : i < k) :
    a.getD i 0 = b.getD i 0 := by
  have hcut : ∀ l : List UInt8, l.getD i 0 = (l.take k).getD i 0 := by
    intro l
    simp [List.getD_eq_getElem?_getD, hi]
  rw [hcut a, hcut b, h.take_eq]

theorem SamePrefix.blockAt (h : SamePrefix k a b) {idx : Nat} (hi : idx + 512 ≤ k) :
    blockAt a idx = blockAt b idx := h.chunk hi

theorem SamePrefix.headerAt (h : SamePrefix k a b) {idx : Nat} (hi : idx + 512 ≤ k) :
    headerAt a idx = headerAt b idx := by
  have ha := headerAt_bytes (Nat.le_trans hi h.le_left)
  have hb := headerAt_bytes (Nat.le_trans hi h.le_right)
  rw [h.blockAt hi, ← hb] at ha
  cases hl : T2sz.headerAt a idx
  cases hr : T2sz.headerAt b idx
  simp_all

theorem extensionBytes_congr (h : SamePrefix k a b) {fuel fuel' pos m : Nat}
    (ha : extensionBytes a fuel pos = some m) (hm : pos + m ≤ k)
    (hfuel : b.length < pos + 512 * fuel') : extensionBytes b fuel' pos = some m := by
  induction fuel generalizing fuel' pos m with
  | zero => simp [extensionBytes] at ha
  | succ fuel ih =>
      cases fuel' with
      | zero =>
          have := h.le_right
          omega
      | succ fuel' =>
          have hle := h.le_right
          simp only [extensionBytes] at ha ⊢
          split at ha
          · cases ha
          · split at ha
            case isTrue hmore =>
              rw [Option.map_eq_some_iff] at ha
              obtain ⟨rest, hrest, rfl⟩ := ha
              rw [if_neg (by omega), if_pos (by rwa [← h.getD (by omega)]),
                ih hrest (by omega) (by omega)]
              rfl
            case isFalse hlast =>
              cases ha
              rw [if_neg (by omega), if_neg (by rwa [← h.getD (by omega)])]

/-- An entry is recognised from its own bytes. -/
theorem recognise_congr (h : SamePrefix k a b) {idx pax : Nat} {e : Entry}
    (ha : recognise a idx pax = some e) (he : idx + e.length ≤ k) :
    recognise b idx pax = some e := by
  obtain ⟨hheader, hvalid, hsize, hsparse, -⟩ := recognise_spec ha
  have hlen := @recognise_length_pos e
  have hle := h.le_right
  rw [hheader, h.headerAt (by omega)] at hvalid hsize hsparse
  have hsparse' : sparseBytes b idx (headerAt b idx) = some e.extensions := by
    simp only [sparseBytes] at hsparse ⊢
    split at hsparse
    case isTrue hflag =>
      rw [if_pos hflag]
      refine extensionBytes_congr h hsparse ?_ (by omega)
      simp only [Entry.length] at he
      omega
    case isFalse hflag => rwa [if_neg hflag]
  have heta : (⟨headerAt b idx, e.size, e.paxNextSize, e.extensions⟩ : Entry) = e := by
    rw [← h.headerAt (by omega), ← hheader]
  simp only [recognise, hvalid, if_true, ← hsize, hsparse', Option.bind_some, heta]
  rw [if_pos (by omega)]

theorem nextCursor_congr (h : SamePrefix k a b) {rule rule' : PaxRule}
    (hrule : ∀ c e, c.idx + e.length ≤ k → rule c e = rule' c e) {c d : Cursor}
    (ha : nextCursor rule a c = some d) (hd : d.idx ≤ k) : nextCursor rule' b c = some d := by
  have hle := h.le_right
  have hmove := nextCursor_idx_le ha
  obtain ⟨-, ⟨hzero, rfl⟩ | ⟨hzero, e, he, rfl⟩⟩ := nextCursor_cases ha
  · rw [h.blockAt (by omega)] at hzero
    rw [nextCursor, if_neg (by omega), hzero, if_pos rfl]
  · rw [h.blockAt (by omega)] at hzero
    have hfits : c.idx + e.length ≤ k := hd
    have hentry : c.pastEntry rule e = c.pastEntry rule' e := by
      simp only [Cursor.pastEntry, hrule c e hfits]
    rw [nextCursor, if_neg (by omega), hzero, recognise_congr h he hfits, hentry]
    rfl

end Prefix

section Walk

variable {rule rule' : PaxRule} {input : List UInt8} {k : Nat}

/-- The walk over the first `k` bytes gets to their end when an element ends there. -/
theorem scan_truncated (hk : k ≤ input.length)
    (hrule : ∀ c e, c.idx + e.length ≤ k → rule c e = rule' c e) {c : Cursor}
    {r : Result Cursor Unit} (h : Runs (scanStep rule input) c r) (hr : r.isReturned = true)
    (hc : c.idx ≤ k) :
    ∃ q, Runs (scanStep rule' (input.take k)) c q ∧ (q.isReturned = true ↔
      (c.idx = k ∧ c.log ≠ []) ∨ ∃ e ∈ r.state.log.drop c.log.length, e.stop = k) := by
  have hsame := samePrefix_take hk
  have hlen : (input.take k).length = k := by simp [hk]
  induction h with
  | @exit c d e h => cases hr
  | @done c d h =>
      obtain ⟨hend, hlog, rfl⟩ := scanStep_done h
      have hidx : d.idx = k := by omega
      refine ⟨.returned d, .done (scanStep_of_end (hidx.trans hlen.symm) hlog), ?_⟩
      simp [hidx, hlog]
  | @next c d r h rest ih =>
      have hnext := scanStep_next h
      obtain ⟨e, hlog, -, hidx, -, -⟩ := nextCursor_log hnext
      have hmove := nextCursor_idx_le hnext
      obtain ⟨later, hlater, hstops⟩ := scan_log rest
      have hall : r.state.log.drop c.log.length = e :: later := by
        rw [hlater, hlog, List.append_assoc, List.drop_left, List.singleton_append]
      have hnew : r.state.log.drop d.log.length = later := by
        rw [hlater, List.drop_left]
      rw [hall]
      by_cases hfits : d.idx ≤ k
      · obtain ⟨q, hq, hiff⟩ := ih hr hfits
        refine ⟨q, .next (scanStep_of_next (nextCursor_congr hsame hrule hnext hfits)) hq, ?_⟩
        have hne : d.log ≠ [] := by simp [hlog]
        rw [hiff, hnew]
        simp only [List.mem_cons, exists_eq_or_imp, ← hidx, hne, ne_eq, not_false_eq_true, and_true]
        have : ¬ c.idx = k := by omega
        simp [this]
      · have hbeyond : ∀ e' ∈ e :: later, e'.stop ≠ k := by
          intro e' he'
          cases he' with
          | head => omega
          | tail _ hmem =>
              have := hstops e' hmem
              omega
        by_cases hend : c.idx = k ∧ c.log ≠ []
        · exact ⟨.returned c, .done (scanStep_of_end (hend.1.trans hlen.symm) hend.2),
            by simp [hend]⟩
        · have hstuck : nextCursor rule' (input.take k) c = none := by
            cases hcut : nextCursor rule' (input.take k) c with
            | none => rfl
            | some d' =>
                have hle := (nextCursor_idx_le hcut).2
                rw [hlen] at hle
                have hback := nextCursor_congr hsame.symm
                  (fun c e he => (hrule c e he).symm) hcut hle
                rw [hnext, Option.some.injEq] at hback
                subst hback
                omega
          have hgoing : c.idx ≠ (input.take k).length ∨ c.log = [] := by
            rw [hlen]
            by_cases hlogc : c.log = []
            · exact .inr hlogc
            · exact .inl fun heq => hend ⟨heq, hlogc⟩
          refine ⟨.exited () c, .exit (scanStep_of_stuck hstuck hgoing), ?_⟩
          constructor
          · intro hreturned
            cases hreturned
          · rintro (hleft | ⟨e', he', hstop⟩)
            · exact absurd hleft hend
            · exact absurd hstop (hbeyond e' he')

end Walk

section Paths

variable {ctx : Context} {input : List UInt8} {k : Nat}

/-- Nothing to be read behind the data of an extended header. -/
def nothingBehind : Nat → List UInt8 := fun _ => []

theorem Entry.data_fits {c : Cursor} {e : Entry} (h : c.idx + e.length ≤ k) :
    c.idx + 512 + e.size ≤ k := by
  have := le_roundUp e.size
  simp only [Entry.length] at h
  omega

theorem filePaxRule_congr {a b : List UInt8} (h : SamePrefix k a b) (c : Cursor) (e : Entry)
    (he : c.idx + e.length ≤ k) :
    filePaxRule ctx nothingBehind a c e = filePaxRule ctx nothingBehind b c e := by
  simp only [filePaxRule, h.chunk (Entry.data_fits he)]

theorem stdinPaxRule_congr {a b : List UInt8} (h : SamePrefix k a b) (c : Cursor) (e : Entry)
    (he : c.idx + e.length ≤ k) :
    stdinPaxRule ctx nothingBehind a c e = stdinPaxRule ctx nothingBehind b c e := by
  simp only [stdinPaxRule, h.chunk (Entry.data_fits he)]

/-- Behind the start every element ends after 0. -/
theorem ends_within {rule : PaxRule} {r : Result Cursor Unit}
    (h : Runs (scanStep rule input) .init r) :
    ((Cursor.init.idx = k ∧ Cursor.init.log ≠ []) ∨
        ∃ e ∈ r.state.log.drop Cursor.init.log.length, e.stop = k) ↔
      0 < k ∧ ∃ e ∈ r.state.log, e.stop = k := by
  obtain ⟨rest, hrest, hstops⟩ := scan_log h
  have hlog : r.state.log = rest := hrest
  simp only [Cursor.init, ne_eq, not_true_eq_false, and_false, false_or, List.length_nil,
    List.drop_zero, hlog]
  constructor
  · rintro ⟨e, he, rfl⟩
    exact ⟨hstops e he, e, he, rfl⟩
  · exact fun hk => hk.2

/-- The first `k` bytes of an archive are an archive when an element ends there. -/
theorem truncated_rejected (hw : ctx.sizeBits = 64) (htar : ctx.rawMode = false)
    (hn : input.length < 2 ^ 62) (hk : k ≤ input.length) :
    (∀ s, compressMapped ctx nothingBehind input = some (.returned s) →
      ∃ r, compressMapped ctx nothingBehind (input.take k) = some r ∧
        (r.isReturned = true ↔ 0 < k ∧ ∃ e ∈ s.log, e.stop = k) ∧
        (r.isReturned = true → (session r.state.calls).PledgesKept)) ∧
    (∀ s, compressStdin ctx nothingBehind ⟨input, false⟩ = some (.returned s) →
      ∃ r, compressStdin ctx nothingBehind ⟨input.take k, false⟩ = some r ∧
        (r.isReturned = true ↔ 0 < k ∧ ∃ e ∈ s.log, e.stop = k) ∧
        (r.isReturned = true → (session r.state.frames.calls).PledgesKept)) := by
  have hlen : (input.take k).length = k := by simp [hk]
  have hsame := samePrefix_take hk
  constructor
  · intro s hs
    obtain ⟨r, r', hr, hscan, hret, hlog, -⟩ :=
      compressMapped_scans htar (room_of_bits hw hn) nothingBehind
    rw [hr, Option.some.injEq] at hs
    subst hs
    obtain ⟨q, q', hq, hscan', hret', -, hrecorded⟩ :=
      compressMapped_scans htar (room_of_bits hw (show (input.take k).length < 2 ^ 62 by omega))
        nothingBehind
    obtain ⟨p, hp, hiff⟩ := scan_truncated hk (filePaxRule_congr hsame) hscan hret.symm
      (Nat.zero_le k)
    obtain rfl := hscan'.unique hp
    refine ⟨q, hq, ?_, fun h => (hrecorded h).kept⟩
    rw [hret', hiff, ends_within hscan, ← hlog]
    rfl
  · intro s hs
    obtain ⟨r, r', hr, hscan, hret, hlog, -⟩ := compressStdin_scans hw hn nothingBehind
    rw [hr, Option.some.injEq] at hs
    subst hs
    obtain ⟨q, q', hq, hscan', hret', -, hrecorded⟩ :=
      compressStdin_scans hw (show (input.take k).length < 2 ^ 62 by omega) nothingBehind
    obtain ⟨p, hp, hiff⟩ := scan_truncated hk (stdinPaxRule_congr hsame) hscan hret.symm
      (Nat.zero_le k)
    obtain rfl := hscan'.unique hp
    refine ⟨q, hq, ?_, fun h => (hrecorded h).kept⟩
    rw [hret', hiff, ends_within hscan, ← hlog]
    rfl

/-- Cut off in the sparse file, and behind it. -/
theorem truncated_rejected_sample :
    (∃ r, compressMapped sampleContext nothingBehind (sampleArchive.bytes.take 3000) = some r ∧
      r.isReturned = false) ∧
    (∃ r, compressMapped sampleContext nothingBehind (sampleArchive.bytes.take 4608) = some r ∧
      r.isReturned = true) ∧
    (∃ r, compressStdin sampleContext nothingBehind ⟨sampleArchive.bytes.take 3000, false⟩ =
      some r ∧ r.isReturned = false) ∧
    ∃ r, compressStdin sampleContext nothingBehind ⟨sampleArchive.bytes.take 4608, false⟩ =
      some r ∧ r.isReturned = true := by
  obtain ⟨s, hs, -, hlog⟩ := compressMapped_sample
  obtain ⟨t, ht, -, hlog'⟩ := compressStdin_sample
  have hprefix : ∀ k, k ≤ 5632 →
      (∃ r, compressMapped sampleContext nothingBehind (sampleArchive.bytes.take k) = some r ∧
        (r.isReturned = true ↔ 0 < k ∧ ∃ e ∈ sampleLog, e.stop = k)) ∧
      ∃ r, compressStdin sampleContext nothingBehind ⟨sampleArchive.bytes.take k, false⟩ =
        some r ∧ (r.isReturned = true ↔ 0 < k ∧ ∃ e ∈ sampleLog, e.stop = k) := by
    intro k hk
    obtain ⟨hfile, hstdin⟩ := @truncated_rejected sampleContext _ k rfl rfl sampleArchive_lt
      (show k ≤ sampleArchive.bytes.length by rwa [sampleArchive_length])
    obtain ⟨r, hr, hiff, -⟩ := hfile s hs
    obtain ⟨q, hq, hiff', -⟩ := hstdin t ht
    rw [hlog] at hiff
    rw [hlog'] at hiff'
    exact ⟨⟨r, hr, hiff⟩, ⟨q, hq, hiff'⟩⟩
  obtain ⟨⟨r, hr, hcut⟩, ⟨q, hq, hcut'⟩⟩ := hprefix 3000 (by decide)
  obtain ⟨⟨x, hx, hwhole⟩, ⟨y, hy, hwhole'⟩⟩ := hprefix 4608 (by decide)
  refine ⟨⟨r, hr, ?_⟩, ⟨x, hx, hwhole.mpr (by decide)⟩, ⟨q, hq, ?_⟩,
    ⟨y, hy, hwhole'.mpr (by decide)⟩⟩
  · rw [Bool.eq_false_iff, Ne, hcut]
    decide
  · rw [Bool.eq_false_iff, Ne, hcut']
    decide

end Paths

end T2sz
