import T2sz.Library.Multiframe
import T2sz.RandomAccess

/-!
What a reader of the zstd format makes of the output.

The format has frames and skippable frames, told apart by their first word. The
seek table is a skippable frame, and so is of no concern to a decompressor: the
output decompresses to the input, with the table and without it.
-/

namespace T2sz

open Multiframe

/-- A skippable frame: one of sixteen magic numbers, the size, and as many bytes. -/
structure IsSkippable (c : List UInt8) : Prop where
  magic : readLE32 c 0 / 16 = 0x184D2A5
  size : c.length = 8 + readLE32 c 4

/-- What the format says of the frames that are not skippable. -/
structure ZstdFormat (IsFrame : List UInt8 → List UInt8 → Prop) : Prop where
  size : ∀ c x, IsFrame c x → 4 ≤ c.length
  magic : ∀ c x, IsFrame c x → readLE32 c 0 = 0xFD2FB528
  /-- A frame tells where it ends, and what it holds. -/
  delimited : ∀ c x c' x' rest rest', IsFrame c x → IsFrame c' x' → c ++ rest = c' ++ rest' →
    c = c' ∧ x = x'

section Words

variable {c c' rest rest' : List UInt8}

/-- A word is not changed by what comes behind it. -/
theorem readLE32_append {i : Nat} (hi : i + 4 ≤ c.length) (rest : List UInt8) :
    readLE32 (c ++ rest) i = readLE32 c i := by
  have hbyte : ∀ j, j < c.length → readByte (c ++ rest) j = readByte c j := by
    intro j hj
    rw [readByte, readByte, List.getD_eq_getElem?_getD, List.getD_eq_getElem?_getD,
      List.getElem?_append_left hj]
  rw [readLE32, readLE32, hbyte _ (by omega), hbyte _ (by omega), hbyte _ (by omega),
    hbyte _ (by omega)]

theorem IsSkippable.unique (h : IsSkippable c) (h' : IsSkippable c')
    (heq : c ++ rest = c' ++ rest') : c = c' := by
  have hlen := h.size
  have hlen' := h'.size
  have hword : readLE32 c 4 = readLE32 c' 4 := by
    rw [← readLE32_append (by omega) rest, heq, readLE32_append (by omega) rest']
  exact (List.append_inj heq (by omega)).1

/-- The files of frames and skippable frames are read in one way. -/
theorem ZstdFormat.toDelimited {IsFrame : List UInt8 → List UInt8 → Prop}
    (h : ZstdFormat IsFrame) : Delimited IsFrame IsSkippable where
  frame_ne := by
    rintro c x hc rfl
    exact absurd (h.size _ _ hc) (by decide)
  skip_ne := by
    rintro c hc rfl
    exact absurd hc.magic (by decide)
  frame := h.delimited
  skip := fun _ _ _ _ hc hc' heq => hc.unique hc' heq
  apart := by
    intro c x c' rest rest' hc hc' heq
    have hsize := h.size c x hc
    have hsize' := hc'.size
    have hmagic := hc'.magic
    rw [← readLE32_append (by omega) rest', ← heq, readLE32_append (by omega) rest,
      h.magic c x hc] at hmagic
    exact absurd hmagic (by decide)

end Words

/-- The seek table is one skippable frame. -/
theorem tableBytes_skippable (host : Host) {adds : List (Nat × Nat)}
    (hfew : adds.length < 2 ^ 27) : IsSkippable (tableBytes host adds) := by
  have hmagic : readLE32 (tableBytes host adds) 0 = 0x184D2A5E := by
    have hfirst : tableBytes host adds = [] ++ (writeLE32 host 0x184D2A5E ++ _) :=
      (List.nil_append _).symm
    exact readLE32_written hfirst
  have hsize : readLE32 (tableBytes host adds) 4 =
      (UInt32.ofNat adds.length * 8 + 9).toNat := by
    rw [← length_writeLE32 host 0x184D2A5E]
    exact readLE32_written rfl
  have hword : (UInt32.ofNat adds.length * 8 + 9).toNat = adds.length * 8 + 9 := by
    rw [UInt32.toNat_add, UInt32.toNat_mul, toNat_ofNat_of_lt (by omega)]
    simp
    omega
  refine ⟨?_, ?_⟩
  · rw [hmagic]
  · rw [length_tableBytes, hsize, hword]
    omega

section Output

variable {host : Host} {IsFrame : List UInt8 → List UInt8 → Prop} {skip : Bool}
  {adds : List (Nat × Nat)} {t : SeekTable} {frames content : List UInt8}

/-- The table adds nothing to the content. -/
theorem Records.decodes (h : Records host skip adds t)
    (hframes : Decodes IsFrame IsSkippable frames content) :
    Decodes IsFrame IsSkippable (cleanupCompression host t frames) content := by
  by_cases hkept : skip = false ∧ adds.length < 2 ^ 27
  · obtain ⟨rfl, hfew⟩ := hkept
    rw [h.cleanup_kept hfew, ← List.append_nil content]
    exact hframes.append (.of_skip (tableBytes_skippable host hfew))
  · rwa [h.cleanup_skipped hkept]

/-- What a run that returns leaves, with `-j` or without: frames that hold the
input, of sizes that 32 bits hold, and the record of each. -/
structure Compressed (host : Host) (IsFrame : List UInt8 → List UInt8 → Prop) (skip : Bool)
    (input : List UInt8) (w : Writer) (segments : List Segment) : Prop where
  frames : ∀ s ∈ segments, IsFrame s.written s.fed
  outFile : w.outFile = segments.flatMap Segment.written
  whole : input = segments.flatMap Segment.fed
  small : ∀ s ∈ segments, s.written.length < 2 ^ 32 ∧ s.fed.length < 2 ^ 32
  table : Records host skip (segments.map Segment.sizes) w.table

theorem Framed.compressed {ctx : Context} {input : List UInt8} (hn : input.length < 2 ^ 62)
    {calls : List Call} (hframed : Framed ctx input calls) {replies : List Reply} {w : Writer}
    (hrun : (Writer.init skip replies).run host calls = .ok w) {outBuffSize : Nat}
    (hz : Conforms outBuffSize IsFrame w.events) :
    ∃ segments, Compressed host IsFrame skip input w segments ∧
      recordedSizes calls = segments.map fun s => s.fed.length := by
  obtain ⟨hbracketed, hfed, hbounds⟩ := hframed.framing hn
  obtain ⟨segments, opened, hlogged, hopened⟩ := run_follows hbracketed hrun
  rw [Option.map_eq_none_iff] at hopened
  subst hopened
  have hevents := hlogged.events
  have houtFile := hlogged.outFile
  have hinput := hlogged.fed
  simp only [Option.map_none, Option.getD_none, List.append_nil] at hevents houtFile hinput
  have hframes : ∀ s ∈ segments, IsFrame s.written s.fed := by
    intro s hs
    refine hz.flushes s ?_ (hlogged.ended s hs)
    rw [hevents]
    exact Segment.events_infix hs
  have hsmall : ∀ s ∈ segments, s.written.length < 2 ^ 32 ∧ s.fed.length < 2 ^ 32 := by
    intro s hs
    have hsize := hbounds s.fed.length (by
      rw [hlogged.sizes]
      exact List.mem_map_of_mem hs)
    rw [MAX_FRAME_SIZE] at hsize
    exact ⟨hz.compact _ _ (hframes s hs) hsize, by omega⟩
  have hentries : segments.map Segment.entry = segments.map Segment.sizes := by
    apply List.map_congr_left
    intro s hs
    rw [Segment.entry, Segment.sizes, Nat.mod_eq_of_lt (by have := hsmall s hs; omega)]
  exact ⟨segments, ⟨hframes, houtFile, by rw [hinput, hfed], hsmall, hentries ▸ hlogged.table⟩,
    hlogged.sizes⟩

/-- The output of a run decompresses to the input. -/
theorem Compressed.decodes {input : List UInt8} {w : Writer} {segments : List Segment}
    (h : Compressed host IsFrame skip input w segments) :
    Decodes IsFrame IsSkippable (cleanupCompression host w.table w.outFile) input := by
  apply h.table.decodes
  rw [h.outFile, h.whole]
  exact decodes_flatMap h.frames

end Output

end T2sz
