import T2sz.ArchiveScan

/-!
Whether the two paths read the same archive.

They walk over the input alike and differ only in the size they carry past a pax
header. The file path parses the data of every pax header. The stdin path parses
it where it holds the header back and where one chunk has all of the data; past
an extended header of more than a chunk, or an empty one for which `held` has no
room, it carries what it carried before. So the readings are the same exactly
when this makes no difference at any pax header.
-/

namespace T2sz

open Iteration

section Rules

variable {rule rule' : PaxRule} {input : List UInt8} {c d : Cursor}

theorem nextCursor_none_of_rule (h : nextCursor rule input c = none) :
    nextCursor rule' input c = none := by
  simp only [nextCursor] at h ⊢
  split at h
  case isTrue hshort => rw [if_pos hshort]
  case isFalse hroom =>
    rw [if_neg hroom]
    split at h
    case isTrue => cases h
    case isFalse hzero =>
      rw [if_neg hzero]
      rw [Option.map_eq_none_iff] at h ⊢
      exact h

/-- The cursor is at an entry past which the rules carry different sizes. -/
structure Diverges (rule rule' : PaxRule) (input : List UInt8) (c : Cursor) (e : Entry) : Prop where
  room : c.idx + 512 ≤ input.length
  entry : isZeroTarBlock (blockAt input c.idx) = false
  found : recognise input c.idx c.paxNextSize = some e
  differs : rule c e ≠ rule' c e

theorem Diverges.next {e : Entry} (h : Diverges rule rule' input c e) :
    nextCursor rule input c = some (c.pastEntry rule e) ∧
      nextCursor rule' input c = some (c.pastEntry rule' e) := by
  have hroom := h.room
  constructor
  · rw [nextCursor, if_neg (by omega), h.entry, h.found]
    rfl
  · rw [nextCursor, if_neg (by omega), h.entry, h.found]
    rfl

/-- Without a divergence the walks take the same step. -/
theorem nextCursor_of_rule (h : nextCursor rule input c = some d)
    (hc : ∀ e, ¬ Diverges rule rule' input c e) : nextCursor rule' input c = some d := by
  obtain ⟨hroom, ⟨hzero, rfl⟩ | ⟨hzero, e, he, rfl⟩⟩ := nextCursor_cases h
  · rw [nextCursor, if_neg (by omega), hzero, if_pos rfl]
  · have hsame : rule c e = rule' c e := by
      by_contra hne
      exact hc e ⟨hroom, hzero, he, hne⟩
    rw [nextCursor, if_neg (by omega), hzero, he]
    simp [Cursor.pastEntry, hsame]

/-- Two walks that part do so at a cursor that both reach. -/
theorem reaches_or_diverges (h : Reaches rule input .init c) :
    Reaches rule' input .init c ∨
      ∃ d e, Reaches rule input .init d ∧ Reaches rule' input .init d ∧
        Diverges rule rule' input d e := by
  induction h with
  | refl => exact .inl .refl
  | @tail c d hreach hnext ih =>
      cases ih with
      | inl hboth =>
          by_cases hc : ∀ e, ¬ Diverges rule rule' input c e
          · exact .inl (hboth.tail (nextCursor_of_rule hnext hc))
          · obtain ⟨e, he⟩ := not_forall_not.mp hc
            exact .inr ⟨c, e, hreach, hboth, he⟩
      | inr hparted => exact .inr hparted

theorem runs_of_rule (hall : ∀ c, Reaches rule input .init c → ∀ e, ¬ Diverges rule rule' input c e)
    {r : Result Cursor Unit} (h : Runs (scanStep rule input) c r)
    (hc : Reaches rule input .init c) : Runs (scanStep rule' input) c r := by
  induction h with
  | done h =>
      obtain ⟨hidx, hlog, rfl⟩ := scanStep_done h
      exact .done (scanStep_of_end hidx hlog)
  | @exit c d e h =>
      obtain ⟨hnone, rfl⟩ := scanStep_exit h
      refine .exit (scanStep_of_stuck (nextCursor_none_of_rule hnone) ?_)
      by_contra hend
      rw [not_or, not_not] at hend
      rw [scanStep_of_end hend.1 hend.2] at h
      cases h
  | next h _ ih =>
      have hnext := scanStep_next h
      exact .next (scanStep_of_next (nextCursor_of_rule hnext (hall _ hc))) (ih (hc.tail hnext))

end Rules

/-- The two runs read the same elements, and carry the same size past every
entry that both recognise. -/
structure SameReading (r : Result FileState Exit) (q : Result StdinState Exit) : Prop where
  outcome : r.isReturned = q.isReturned
  elements : r.isReturned = true → r.state.log.map Element.shape = q.state.log.map Element.shape
  carried : ∀ (i : Nat) (e e' : Element), r.state.log[i]? = some e → q.state.log[i]? = some e' →
    e.offset = e'.offset → e.carried = e'.carried

/-- At every pax header the file path gets to, the size in its data is the one
the stdin path goes on with. -/
def CarriedAlike (ctx : Context) (fileAfter stdinAfter : Nat → List UInt8)
    (input : List UInt8) : Prop :=
  ∀ c, Reaches (filePaxRule ctx fileAfter input) input .init c → ∀ e,
    c.idx + 512 ≤ input.length → isZeroTarBlock (blockAt input c.idx) = false →
    recognise input c.idx c.paxNextSize = some e → e.header.typeflag = 0x78 →
    let data := (input.drop (c.idx + 512)).take e.size
    let stop := c.idx + 512 + e.size
    paxSize ctx.sizeBits data (fileAfter stop) =
      if holds c.held e || (0 < roundUp e.size && roundUp e.size ≤ IN_CHUNK) then
        paxSize ctx.sizeBits data (stdinAfter stop)
      else c.paxNextSize

section Readings

variable {ctx : Context} {fileAfter stdinAfter : Nat → List UInt8} {input : List UInt8}

/-- The sizes that differ are those of pax headers. -/
theorem diverges_iff {c : Cursor} {e : Entry} (hroom : c.idx + 512 ≤ input.length)
    (hzero : isZeroTarBlock (blockAt input c.idx) = false)
    (he : recognise input c.idx c.paxNextSize = some e) :
    Diverges (filePaxRule ctx fileAfter input) (stdinPaxRule ctx stdinAfter input) input c e ↔
      ¬ (e.header.typeflag = 0x78 →
        paxSize ctx.sizeBits ((input.drop (c.idx + 512)).take e.size)
            (fileAfter (c.idx + 512 + e.size)) =
          if holds c.held e || (0 < roundUp e.size && roundUp e.size ≤ IN_CHUNK) then
            paxSize ctx.sizeBits ((input.drop (c.idx + 512)).take e.size)
              (stdinAfter (c.idx + 512 + e.size))
          else c.paxNextSize) := by
  have hrules : filePaxRule ctx fileAfter input c e = stdinPaxRule ctx stdinAfter input c e ↔
      (e.header.typeflag = 0x78 →
        paxSize ctx.sizeBits ((input.drop (c.idx + 512)).take e.size)
            (fileAfter (c.idx + 512 + e.size)) =
          if holds c.held e || (0 < roundUp e.size && roundUp e.size ≤ IN_CHUNK) then
            paxSize ctx.sizeBits ((input.drop (c.idx + 512)).take e.size)
              (stdinAfter (c.idx + 512 + e.size))
          else c.paxNextSize) := by
    simp only [filePaxRule, stdinPaxRule]
    by_cases hx : e.header.typeflag = 0x78
    · have hkind : isExtensionHeader e.header = true := by simp [isExtensionHeader, hx]
      have hpax : e.paxNextSize = c.paxNextSize := by
        have hsize := (recognise_spec he).2.2.1
        rw [tarEntrySize_extension hkind] at hsize
        exact (Prod.mk.inj hsize).2
      simp [hx, hpax]
    · simp [hx]
  rw [← hrules]
  exact ⟨fun h => h.differs, fun h => ⟨hroom, hzero, he, h⟩⟩

theorem carriedAlike_iff :
    CarriedAlike ctx fileAfter stdinAfter input ↔
      ∀ c, Reaches (filePaxRule ctx fileAfter input) input .init c → ∀ e,
        ¬ Diverges (filePaxRule ctx fileAfter input) (stdinPaxRule ctx stdinAfter input)
          input c e := by
  constructor
  · intro h c hc e hd
    exact (diverges_iff hd.room hd.entry hd.found).mp hd (h c hc e hd.room hd.entry hd.found)
  · intro h c hc e hroom hzero he
    by_contra hne
    exact h c hc e ((diverges_iff hroom hzero he).mpr hne)

/-- Behind a divergence the logs differ. -/
theorem Diverges.logs_differ {rule rule' : PaxRule} {c : Cursor} {e : Entry}
    (h : Diverges rule rule' input c e) (hc : Reaches rule input .init c)
    (hc' : Reaches rule' input .init c) {r q : Result Cursor Unit}
    (hr : Runs (scanStep rule input) .init r) (hq : Runs (scanStep rule' input) .init q) :
    r.state.log[c.log.length]? =
        some (.entry c.idx e.length (joinsNextEntry e.header) (rule c e)) ∧
      q.state.log[c.log.length]? =
        some (.entry c.idx e.length (joinsNextEntry e.header) (rule' c e)) := by
  obtain ⟨hnext, hnext'⟩ := h.next
  obtain ⟨rest, hlog, -⟩ := scan_log (Reaches.runs_from (hc.tail hnext) hr)
  obtain ⟨rest', hlog', -⟩ := scan_log (Reaches.runs_from (hc'.tail hnext') hq)
  constructor
  · simp [hlog, Cursor.pastEntry]
  · simp [hlog', Cursor.pastEntry]

/-- The two paths read the same exactly when the pax headers give them the same
sizes. -/
theorem sameReading_iff (hw : ctx.sizeBits = 64) (htar : ctx.rawMode = false)
    (hn : input.length < 2 ^ 62) (fileAfter stdinAfter : Nat → List UInt8) :
    ∃ r q, compressMapped ctx fileAfter input = some r ∧
      compressStdin ctx stdinAfter ⟨input, false⟩ = some q ∧
      (SameReading r q ↔ CarriedAlike ctx fileAfter stdinAfter input) := by
  obtain ⟨r, r', hr, hscan, hret, hlog, -⟩ :=
    compressMapped_scans htar (room_of_bits hw hn) fileAfter
  obtain ⟨q, q', hq, hscan', hret', hlog', -⟩ := compressStdin_scans hw hn stdinAfter
  refine ⟨r, q, hr, hq, ?_⟩
  rw [carriedAlike_iff]
  constructor
  · intro hsame
    by_contra hnot
    simp only [not_forall, not_not] at hnot
    obtain ⟨c, hc, e, hd⟩ := hnot
    obtain ⟨d, f, hd₁, hd₂, hdiv⟩ : ∃ d f, Reaches (filePaxRule ctx fileAfter input) input .init d ∧
        Reaches (stdinPaxRule ctx stdinAfter input) input .init d ∧
        Diverges (filePaxRule ctx fileAfter input) (stdinPaxRule ctx stdinAfter input)
          input d f := by
      cases reaches_or_diverges hc with
      | inl hboth => exact ⟨c, e, hc, hboth, hd⟩
      | inr hparted => exact hparted
    obtain ⟨hleft, hright⟩ := hdiv.logs_differ hd₁ hd₂ hscan hscan'
    rw [← hlog] at hleft
    rw [← hlog'] at hright
    have hcarried := hsame.carried _ _ _ hleft hright rfl
    exact hdiv.differs (Option.some.inj hcarried)
  · intro hall
    have hagree := runs_of_rule hall hscan .refl
    obtain rfl := hscan'.unique hagree
    have hlogs : r.state.log = q.state.log := hlog.trans hlog'.symm
    refine ⟨hret.trans hret'.symm, fun _ => by rw [hlogs], ?_⟩
    intro i e e' he he' _
    rw [hlogs, he', Option.some.injEq] at he
    rw [he]

/-- The sample archive has a pax header with a size. -/
theorem sameReading_iff_sample :
    ∃ s t, compressMapped sampleContext (fun _ => []) sampleArchive.bytes = some (.returned s) ∧
      compressStdin sampleContext (fun _ => []) ⟨sampleArchive.bytes, false⟩ =
        some (.returned t) ∧
      SameReading (.returned s) (.returned t) ∧
      CarriedAlike sampleContext (fun _ => []) (fun _ => []) sampleArchive.bytes := by
  obtain ⟨s, hs, -, hlog⟩ := compressMapped_sample
  obtain ⟨t, ht, -, hlog'⟩ := compressStdin_sample
  have hsame : SameReading (.returned s) (.returned t) := by
    refine ⟨rfl, fun _ => by rw [Result.state_returned, Result.state_returned, hlog, hlog'], ?_⟩
    intro i e e' he he' _
    rw [Result.state_returned, hlog] at he
    rw [Result.state_returned, hlog', he, Option.some.injEq] at he'
    rw [he']
  obtain ⟨r, q, hr, hq, hiff⟩ := @sameReading_iff sampleContext sampleArchive.bytes rfl rfl
    sampleArchive_lt (fun _ => []) (fun _ => [])
  obtain rfl := Option.some.inj (hs.symm.trans hr)
  obtain rfl := Option.some.inj (ht.symm.trans hq)
  exact ⟨s, t, hs, ht, hsame, hiff.mp hsame⟩

end Readings

/-- The header of a pax header with 131073 bytes of data. -/
def largePaxHeader : TarHeader :=
  .ofFields [0x30, 0x30, 0x30, 0x30, 0x30, 0x34, 0x30, 0x30, 0x30, 0x30, 0x31, 0]
    [0x30, 0x30, 0x31, 0x36, 0x31, 0x35, 0, 0x20] 0x78 rfl rfl

/-- Its data, one byte more than a chunk: `"12 size=512\n"` and a comment. -/
def largePaxRecords : List PaxRecord :=
  [sizeRecord,
   { digits := [0x31, 0x33, 0x31, 0x30, 0x36, 0x31]
     key := [0x63, 0x6f, 0x6d, 0x6d, 0x65, 0x6e, 0x74]
     value := List.replicate 131045 0x61
     decimal := by simp [isDigitOf]
     plain := by decide
     counts := by rw [List.length_replicate]; decide }]

theorem length_largePaxRecords : (largePaxRecords.flatMap PaxRecord.bytes).length = 131073 := by
  rw [largePaxRecords, List.flatMap_cons, List.flatMap_cons, List.flatMap_nil, List.append_nil,
    List.length_append, PaxRecord.length_bytes, PaxRecord.length_bytes]
  decide

theorem largePaxHeader_valid : OctalField largePaxHeader.chksum (checksum largePaxHeader) :=
  .intro [] [0x30, 0x30, 0x31, 0x36, 0x31, 0x35] [0, 0x20] (by decide +kernel) (by simp) (by simp)
    (by simp [isDigitOf]) (by simp [isDigitOf]) (by decide +kernel)

def largePaxEntry : WrittenEntry where
  header := largePaxHeader
  extensions := []
  data := largePaxRecords.flatMap PaxRecord.bytes
  padding := List.replicate 511 0
  valid := largePaxHeader_valid
  blocks := noExtensions
  chained := by rw [if_neg (by decide +kernel)]
  padded := by
    rw [length_largePaxRecords, List.length_replicate]
    decide

theorem largePaxEntry_size : SizeField largePaxHeader.size 131073 :=
  .octal (.intro [] [0x30, 0x30, 0x30, 0x30, 0x30, 0x34, 0x30, 0x30, 0x30, 0x30, 0x31] [0]
    (by decide +kernel) (by simp) (by simp) (by simp [isDigitOf]) (by simp [isDigitOf])
    (by decide +kernel))

theorem largePaxRecords_size : largePaxRecords.filter PaxRecord.isSize = [sizeRecord] := rfl

theorem largePaxEntry_kind : largePaxEntry.header.typeflag = 0x78 := by decide +kernel

theorem largePaxEntry_fits : SizeField largePaxEntry.header.size largePaxEntry.data.length := by
  rw [largePaxEntry, length_largePaxRecords]
  exact largePaxEntry_size

theorem largePaxRecords_single : (largePaxRecords.filter PaxRecord.isSize).length ≤ 1 :=
  Nat.le_refl 1

/-- The pax header by itself. -/
def largePax : PaxEntry where
  entry := largePaxEntry
  records := largePaxRecords
  kind := largePaxEntry_kind
  size := largePaxEntry_fits
  data := rfl
  single := largePaxRecords_single

/-- A member of 512 null bytes whose length only its pax header has. -/
def largePaxArchive : Archive where
  members := [{
    pax := some largePax
    others := []
    entry := blockFile
    ordinary := blockFile_ordinary
    size := blockFile_size largePaxRecords_size }]
  nonempty := List.cons_ne_nil _ _
  nulls := 0

theorem largePaxArchive_bytes :
    largePaxArchive.bytes = largePaxEntry.bytes ++ (emptyFile.bytes ++ List.replicate 512 0) := by
  simp only [Archive.bytes, Archive.entries, largePaxArchive, largePax, Member.entries, blockFile,
    WrittenEntry.bytes, emptyFile, List.flatMap_cons, List.flatMap_nil, Option.map_some,
    Option.toList_some, List.map_nil, List.append_nil, List.nil_append, List.cons_append,
    List.flatten_nil, Nat.mul_zero, List.replicate_zero, List.append_assoc]

theorem largePaxEntry_data : largePaxEntry.data.length = 131073 := length_largePaxRecords

theorem largePaxEntry_length : largePaxEntry.length = 132096 := by
  rw [WrittenEntry.length, largePaxEntry_data]
  decide

theorem largePaxArchive_elements :
    largePaxArchive.elements = [.entry 0 132096 true 0, .entry 132096 1024 false 0] := by
  simp only [Archive.elements, Archive.entries, largePaxArchive, largePax, Member.entries,
    List.flatMap_cons, List.flatMap_nil, Option.map_some, Option.toList_some, List.map_nil,
    List.append_nil, List.cons_append, List.nil_append, writtenElements, nullElements,
    largePaxEntry_length]
  decide +kernel

/-- Its data is too large to be held back, and more than a chunk. -/
theorem largePaxEntry_ignored (ctx : Context) (after : Nat → List UInt8) (input : List UInt8)
    (c : Cursor) (pax : Nat) : stdinPaxRule ctx after input c (largePaxEntry.entry pax) = pax := by
  have hround : roundUp (largePaxEntry.entry pax).size = 131584 := by
    rw [WrittenEntry.entry, largePaxEntry_data]
    exact show roundUp 131073 = 131584 by decide
  have hholds : holds c.held (largePaxEntry.entry pax) = false := by
    rw [holds, hround]
    simp
    omega
  simp only [stdinPaxRule, hround, hholds]
  rfl

/-- The walk of the stdin path over the archive. -/
theorem largePaxArchive_reaches :
    ∃ d, Reaches (stdinPaxRule newContext (fun _ => []) largePaxArchive.bytes)
        largePaxArchive.bytes .init d ∧ d.idx = largePaxArchive.bytes.length ∧
      d.log.map Element.shape =
        [.entry 0 132096 true 0, .entry 132096 512 false 0, .null 132608] := by
  have hsize : (tarEntrySize largePaxEntry.header UINT64_MAX).1 = largePaxEntry.data.length := by
    rw [tarEntrySize_extension (by decide +kernel), largePaxEntry_data]
    exact parseTarSize_sizeField largePaxEntry_size (by decide)
  have hfirst := @nextCursor_entry largePaxArchive.bytes .init
    (stdinPaxRule newContext (fun _ => []) largePaxArchive.bytes) [] _ largePaxEntry
    largePaxArchive_bytes rfl hsize
  rw [tarEntrySize_extension (by decide +kernel)] at hfirst
  have hrule := largePaxEntry_ignored newContext (fun _ => []) largePaxArchive.bytes
  generalize stdinPaxRule newContext (fun _ => []) largePaxArchive.bytes = rule at hfirst hrule ⊢
  have hcarried : (Cursor.init.pastEntry rule (largePaxEntry.entry UINT64_MAX)).paxNextSize =
      UINT64_MAX := by
    rw [Cursor.pastEntry_paxNextSize, hrule]
  have hsecond := @nextCursor_entry largePaxArchive.bytes
    (Cursor.init.pastEntry rule (largePaxEntry.entry UINT64_MAX)) rule largePaxEntry.bytes _
    emptyFile largePaxArchive_bytes (by
      rw [largePaxEntry.length_bytes, Cursor.pastEntry_idx, WrittenEntry.entry_length,
        Cursor.init_idx, Nat.zero_add]) (by
      rw [hcarried]
      decide +kernel)
  rw [hcarried, show (tarEntrySize emptyFile.header UINT64_MAX).2 = UINT64_MAX by
    decide +kernel] at hsecond
  obtain ⟨d, hreach, hidx, hlog⟩ := @reaches_nulls largePaxArchive.bytes
    ((Cursor.init.pastEntry rule (largePaxEntry.entry UINT64_MAX)).pastEntry rule
      (emptyFile.entry UINT64_MAX)) rule 1 (largePaxEntry.bytes ++ emptyFile.bytes)
    (by rw [largePaxArchive_bytes, List.append_assoc]) (by
      rw [List.length_append, largePaxEntry.length_bytes, emptyFile.length_bytes,
        Cursor.pastEntry_idx, Cursor.pastEntry_idx, WrittenEntry.entry_length,
        WrittenEntry.entry_length, Cursor.init_idx, Nat.zero_add])
  refine ⟨d, .head hfirst (.head hsecond hreach), hidx, ?_⟩
  have hfirstJoins : joinsNextEntry (largePaxEntry.entry UINT64_MAX).header = true := by
    decide +kernel
  have hsecondJoins : joinsNextEntry (emptyFile.entry UINT64_MAX).header = false := by
    decide +kernel
  have hlength : emptyFile.length = 512 := by decide +kernel
  rw [hlog, Cursor.pastEntry_log, Cursor.pastEntry_log, Cursor.pastEntry_idx, Cursor.init_idx,
    Cursor.init_log, hfirstJoins, hsecondJoins, WrittenEntry.entry_length,
    WrittenEntry.entry_length, List.length_append, largePaxEntry.length_bytes,
    emptyFile.length_bytes, largePaxEntry_length, hlength]
  rfl

/-- Only the file path reads the size. The stdin path finds an empty file, and
takes its contents for a null block. -/
theorem large_pax_header_misread :
    ∃ s t, compressMapped newContext (fun _ => []) largePaxArchive.bytes = some (.returned s) ∧
      compressStdin newContext (fun _ => []) ⟨largePaxArchive.bytes, false⟩ = some (.returned t) ∧
      s.log.map Element.shape ≠ t.log.map Element.shape ∧
      ¬ SameReading (.returned s) (.returned t) := by
  have hn : largePaxArchive.bytes.length < 2 ^ 62 := by
    rw [largePaxArchive_bytes, List.length_append, List.length_append, largePaxEntry.length_bytes,
      largePaxEntry_length, emptyFile.length_bytes, List.length_replicate]
    decide
  obtain ⟨r, r', hr, hscan, hret, hlog, -⟩ :=
    @compressMapped_scans newContext rfl _ (room_of_bits rfl hn) fun _ => []
  obtain ⟨q, q', hq, hscan', hret', hlog', -⟩ :=
    @compressStdin_scans newContext rfl _ hn fun _ => []
  obtain ⟨d, hreach, hidx, hne, hshapes⟩ :=
    @Archive.reaches newContext rfl (fun _ => []) largePaxArchive hn
  obtain ⟨d', hreach', hidx', hshapes'⟩ := largePaxArchive_reaches
  have hne' : d'.log ≠ [] := by
    intro hnil
    rw [hnil] at hshapes'
    cases hshapes'
  obtain rfl := hscan.unique (hreach.runs (.done (scanStep_of_end hidx hne)))
  obtain rfl := hscan'.unique (hreach'.runs (.done (scanStep_of_end hidx' hne')))
  cases r with
  | exited e s => cases hret
  | returned s =>
    cases q with
    | exited e t => cases hret'
    | returned t =>
        have hdiffer : s.log.map Element.shape ≠ t.log.map Element.shape := by
          intro heq
          have hleft : s.log = d.log := hlog
          have hright : t.log = d'.log := hlog'
          rw [hleft, hright, hshapes, hshapes', largePaxArchive_elements] at heq
          cases heq
        exact ⟨s, t, hr, hq, hdiffer, fun hsame => hdiffer (hsame.elements rfl)⟩

end T2sz
