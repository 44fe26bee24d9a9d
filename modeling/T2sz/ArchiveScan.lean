import T2sz.Archive
import T2sz.Checksum
import T2sz.FrameSizes
import T2sz.PaxSpec

/-!
The file path reads an archive as its writer wrote it.

At the start of a written entry the walk moves over exactly that entry, given
the size it carries there; what it carries on is what the next entry needs.
-/

namespace T2sz

open Iteration

set_option maxRecDepth 4000

section Written

variable {input before behind : List UInt8} {e : WrittenEntry}

theorem chunk_written (hinput : input = before ++ (e.bytes ++ behind)) {pos n : Nat}
    (hn : pos + n ≤ e.length) :
    (input.drop (before.length + pos)).take n = (e.bytes.drop pos).take n := by
  rw [hinput, List.drop_append, List.drop_of_length_le (Nat.le_add_right _ _), List.nil_append,
    Nat.add_sub_cancel_left, List.drop_append_of_le_length, List.take_append_of_le_length]
  · rw [List.length_drop, e.length_bytes]
    omega
  · rw [e.length_bytes]
    omega

theorem blockAt_written (hinput : input = before ++ (e.bytes ++ behind)) :
    blockAt input before.length = e.header.bytes := by
  have hchunk := @chunk_written input before behind e hinput 0 512 (by
    simp only [WrittenEntry.length]
    omega)
  rw [Nat.add_zero, List.drop_zero] at hchunk
  rw [blockAt, hchunk, WrittenEntry.bytes, List.take_append_of_le_length e.header.size_eq.ge,
    List.take_of_length_le e.header.size_eq.le]

theorem length_written (hinput : input = before ++ (e.bytes ++ behind)) :
    before.length + e.length ≤ input.length := by
  rw [hinput, List.length_append, List.length_append, e.length_bytes]
  omega

theorem headerAt_written (hinput : input = before ++ (e.bytes ++ behind)) :
    headerAt input before.length = e.header := by
  have hlen := length_written hinput
  simp only [WrittenEntry.length] at hlen
  have hbytes := @headerAt_bytes input before.length (by omega)
  rw [blockAt_written hinput] at hbytes
  cases hl : headerAt input before.length
  cases hr : e.header
  simp_all

/-- A chain of blocks is counted to its end. -/
theorem extensionBytes_chained {blocks : List (List UInt8)} (hblocks : ∀ b ∈ blocks, b.length = 512)
    (hchain : Chained blocks) (hinput : input = before ++ (blocks.flatten ++ behind)) (fuel : Nat)
    (hfuel : input.length < before.length + 512 * fuel) :
    extensionBytes input fuel before.length = some (512 * blocks.length) := by
  induction fuel generalizing before blocks with
  | zero =>
      have := congrArg List.length hinput
      simp only [List.length_append] at this
      omega
  | succ fuel ih =>
      cases blocks with
      | nil => exact absurd hchain id
      | cons block rest =>
          have hblock := hblocks block List.mem_cons_self
          have hlen := congrArg List.length hinput
          simp only [List.flatten_cons, List.length_append, hblock] at hlen
          have hbyte : input.getD (before.length + 504) 0 = block.getD 504 0 := by
            rw [hinput, List.flatten_cons, List.getD_append_right _ _ _ _ (Nat.le_add_right _ _),
              Nat.add_sub_cancel_left, List.append_assoc, List.getD_append _ _ _ _ (by omega)]
          simp only [extensionBytes]
          rw [if_neg (by omega), hbyte]
          cases rest with
          | nil =>
              have hlast : block.getD 504 0 = 0 := hchain
              rw [hlast, if_neg (fun h => h rfl)]
              rfl
          | cons next rest =>
              have hsplit : input = (before ++ block) ++ ((next :: rest).flatten ++ behind) := by
                rw [hinput, List.flatten_cons, List.append_assoc, List.append_assoc]
              have hpos : (before ++ block).length = before.length + 512 := by
                rw [List.length_append, hblock]
              have hnext := ih (fun b hb => hblocks b (List.mem_cons_of_mem _ hb)) hchain.2 hsplit
                (by omega)
              rw [hpos] at hnext
              rw [if_pos hchain.1, hnext, Option.map_some, Option.some.injEq]
              simp only [List.length_cons]
              omega

theorem sparseBytes_written (hinput : input = before ++ (e.bytes ++ behind)) :
    sparseBytes input before.length e.header = some (512 * e.extensions.length) := by
  have hchained := e.chained
  simp only [sparseBytes]
  by_cases hflag : hasSparseExtension e.header = true
  · rw [if_pos hflag] at hchained ⊢
    have hpos : (before ++ e.header.bytes).length = before.length + 512 := by
      rw [List.length_append, e.header.size_eq]
    rw [← hpos]
    have hsplit : input = (before ++ e.header.bytes) ++
        (e.extensions.flatten ++ (e.data ++ e.padding ++ behind)) := by
      rw [hinput, WrittenEntry.bytes]
      simp only [List.append_assoc]
    exact extensionBytes_chained e.blocks hchained hsplit _ (by omega)
  · rw [if_neg hflag] at hchained ⊢
    rw [hchained]
    rfl

/-- The parser finds the entry that was written. -/
theorem recognise_written (hinput : input = before ++ (e.bytes ++ behind)) {pax : Nat}
    (hsize : (tarEntrySize e.header pax).1 = e.data.length) :
    recognise input before.length pax = some (e.entry (tarEntrySize e.header pax).2) := by
  have hlen := length_written hinput
  simp only [recognise, headerAt_written hinput, isTarHeader_of_valid e.valid, if_true,
    sparseBytes_written hinput, Option.bind_some, hsize]
  rw [if_pos]
  · rfl
  · exact hlen

end Written

section Records

theorem PaxRecord.length_bytes (r : PaxRecord) :
    r.bytes.length = digitsValue 10 r.digits := by
  rw [r.counts]
  simp only [PaxRecord.bytes, List.length_append, List.length_cons, List.length_nil]
  omega

/-- A key without an equals sign that reads as `"size="` is `"size"`. -/
theorem sizeName_of_take {key value : List UInt8} (hplain : 0x3d ∉ key)
    (h : (0x20 :: (key ++ 0x3d :: value)).take 6 = sizeKey) : key = PaxRecord.sizeName := by
  rcases key with _ | ⟨a, _ | ⟨b, _ | ⟨c, _ | ⟨d, _ | ⟨e, key⟩⟩⟩⟩⟩ <;>
    simp_all [sizeKey, PaxRecord.sizeName]

/-- What follows the length. -/
def PaxRecord.text (r : PaxRecord) : List UInt8 :=
  0x20 :: (r.key ++ 0x3d :: (r.value ++ [0x0a]))

theorem PaxRecord.whole (r : PaxRecord) (behind : List UInt8) :
    WholeRecord (r.bytes ++ behind) r.digits r.text behind where
  parts := List.append_assoc r.digits r.text behind
  decimal := r.decimal
  nonempty := List.cons_ne_nil _ _
  ended := by
    intro c hc
    simp only [PaxRecord.text, List.head?_cons, Option.mem_some_iff] at hc
    subst hc
    rfl
  counts := by
    rw [r.counts]
    simp only [PaxRecord.text, List.length_append, List.length_cons, List.length_nil]
    omega

theorem PaxRecord.sizeKey_iff (r : PaxRecord) : sizeKey <+: r.text ↔ r.isSize = true := by
  rw [PaxRecord.isSize, beq_iff_eq]
  constructor
  · intro h
    exact sizeName_of_take r.plain (List.prefix_iff_eq_take.mp h).symm
  · intro h
    rw [PaxRecord.text, h]
    exact ⟨r.value ++ [0x0a], rfl⟩

/-- The size the records give. -/
def recordsSize (records : List PaxRecord) (n : Nat) : Prop :=
  match records.filter PaxRecord.isSize with
  | [] => n = UINT64_MAX
  | r :: _ => DecimalValue r.value n ∧ n < 2 ^ 62

variable {w : Nat} {data beyond : List UInt8}

/-- The record loop goes from record to record up to the size record. -/
theorem paxRecords_records (hw : data.length < 2 ^ w) {records : List PaxRecord} {n : Nat}
    (hn : recordsSize records n) (pos : Nat)
    (hdata : records.flatMap PaxRecord.bytes = data.drop pos) (fuel : Nat)
    (hfuel : data.length ≤ pos + fuel) : paxRecords w data beyond fuel pos = n := by
  induction records generalizing pos fuel with
  | nil =>
      have hend : data.length ≤ pos := List.drop_eq_nil_iff.mp hdata.symm
      have hvalue : n = UINT64_MAX := hn
      rw [hvalue]
      exact paxRecords_no_record (fun length h => absurd h.pos_lt (Nat.not_lt.mpr hend)) fuel
  | cons r records ih =>
      have hwhole := r.whole (records.flatMap PaxRecord.bytes)
      rw [List.flatMap_cons] at hdata
      obtain ⟨-, hrecord, hbehind⟩ := hwhole.record hdata hw
      have hkey := @WholeRecord.sizeKeyAt_iff w data beyond _ _ _ _ pos hwhole hdata hw
      rw [r.sizeKey_iff] at hkey
      cases fuel with
      | zero => exact absurd hrecord.pos_lt (Nat.not_lt.mpr hfuel)
      | succ fuel =>
          obtain ⟨htaken, hhop⟩ := @paxRecords_record w data beyond pos _ hrecord fuel
          by_cases hsize : r.isSize = true
          · simp only [recordsSize, List.filter_cons, hsize, if_true] at hn
            obtain ⟨⟨hne, hdecimal, hvalue⟩, hsmall⟩ := hn
            have hname : r.key = PaxRecord.sizeName := by simpa [PaxRecord.isSize] using hsize
            have htext : r.text = sizeKey ++ (r.value ++ [0x0a]) := by
              rw [PaxRecord.text, hname]
              rfl
            have hlong : 6 < r.text.length := by
              have hpositive := List.length_pos_iff.mpr hne
              rw [htext, List.length_append, List.length_append, show sizeKey.length = 6 by rfl,
                List.length_singleton]
              omega
            have hnumber : NumberText (r.value ++ [0x0a]) r.value := ⟨rfl, hne, hdecimal⟩
            have hfits : n ≤ UINT64_MAX - 6 := by
              simp only [UINT64_MAX]
              omega
            rw [htaken (hkey.mpr ⟨hsize, hlong⟩), hwhole.valueText_eq hdata hw, htext,
              List.drop_left' (show sizeKey.length = 6 by rfl), recordValue_text,
              hnumber.takeWhile_eq, hvalue, if_pos hfits]
          · have hrest : recordsSize records n := by
              simpa [recordsSize, List.filter_cons, hsize] using hn
            have hpositive := hrecord.positive
            rw [hhop (fun h => hsize (hkey.mp h).1)]
            exact ih hrest _ hbehind fuel (by omega)

/-- The data of a pax header is read as its size record says. -/
theorem paxSize_records (hw : data.length < 2 ^ w) {records : List PaxRecord} {n : Nat}
    (hn : recordsSize records n) (hdata : data = records.flatMap PaxRecord.bytes) :
    paxSize w data beyond = n := by
  exact paxRecords_records hw hn 0 hdata.symm data.length (Nat.le_add_left _ _)

end Records

/-- A written entry takes its own length when `pax` is carried up to it, and
`pax'` is carried on. -/
def Carries (pax : Nat) (e : WrittenEntry) (pax' : Nat) : Prop :=
  (tarEntrySize e.header pax).1 = e.data.length ∧
    ∀ beyond, (if e.header.typeflag == 0x78 then paxSize 64 e.data beyond
      else (tarEntrySize e.header pax).2) = pax'

def CarriesAll : Nat → List WrittenEntry → Nat → Prop
  | pax, [], pax' => pax = pax'
  | pax, e :: rest, pax' => ∃ between, Carries pax e between ∧ CarriesAll between rest pax'

theorem carriesAll_append {pax between pax' : Nat} {l m : List WrittenEntry}
    (hl : CarriesAll pax l between) (hm : CarriesAll between m pax') :
    CarriesAll pax (l ++ m) pax' := by
  induction l generalizing pax with
  | nil =>
      have heq : pax = between := hl
      rwa [heq]
  | cons e l ih =>
      obtain ⟨next, he, hrest⟩ := hl
      exact ⟨next, he, ih hrest⟩

theorem tarEntrySize_extension {header : TarHeader} (h : isExtensionHeader header = true)
    (pax : Nat) : tarEntrySize header pax = (parseTarSize header, pax) := by
  simp [tarEntrySize, h]

theorem ExtensionEntry.isExtension (x : ExtensionEntry) :
    isExtensionHeader x.entry.header = true ∧ x.entry.header.typeflag ≠ 0x78 := by
  rcases x.kind with h | h | h <;> simp [isExtensionHeader, h]

theorem PaxEntry.isExtension (x : PaxEntry) : isExtensionHeader x.entry.header = true := by
  simp [isExtensionHeader, x.kind]

theorem ExtensionEntry.carries (x : ExtensionEntry) (hsmall : x.entry.data.length < 2 ^ 62)
    (pax : Nat) : Carries pax x.entry pax := by
  have hsize := parseTarSize_sizeField x.size (by omega)
  simp only [Carries, tarEntrySize_extension x.isExtension.1, hsize, beq_iff_eq, x.isExtension.2,
    if_false, true_and]
  exact fun _ => trivial

theorem PaxEntry.carries (x : PaxEntry) (hsmall : x.entry.data.length < 2 ^ 62) {pax n : Nat}
    (hn : recordsSize x.records n) : Carries pax x.entry n := by
  have hsize := parseTarSize_sizeField x.size (by omega)
  have hword : x.entry.data.length < 2 ^ 64 := by omega
  simp only [Carries, tarEntrySize_extension x.isExtension, hsize, beq_iff_eq, x.kind, if_true,
    true_and]
  exact fun _ => paxSize_records hword hn x.data

/-- The size a member's pax header brings fits the member behind it. -/
theorem Member.size_spec (m : Member) (hsmall : m.entry.data.length < 2 ^ 62) :
    ∃ n, recordsSize ((m.pax.map PaxEntry.records).getD []) n ∧
      Carries n m.entry UINT64_MAX ∧ (m.pax = none → n = UINT64_MAX) := by
  have hkind : m.entry.header.typeflag ≠ 0x78 := by
    intro hx
    have := m.ordinary
    simp [isExtensionHeader, hx] at this
  have hsize := m.size
  simp only [PayloadSize] at hsize
  split at hsize
  case h_1 hnone =>
    have hparse := parseTarSize_sizeField hsize (by omega)
    refine ⟨UINT64_MAX, by simp [recordsSize, hnone], ?_, fun _ => rfl⟩
    simp [Carries, tarEntrySize, hparse, hkind]
  case h_2 r rest hsome =>
    refine ⟨m.entry.data.length, ?_, ?_, ?_⟩
    · simp only [recordsSize, hsome]
      exact ⟨hsize, hsmall⟩
    · have hne : m.entry.data.length ≠ UINT64_MAX := by
        simp only [UINT64_MAX]
        omega
      simp [Carries, tarEntrySize, m.ordinary, hne, hkind]
    · intro hnone
      simp [hnone] at hsome

/-- A member uses up the size it brings. -/
theorem Member.carries (m : Member) (hsmall : ∀ e ∈ m.entries, e.data.length < 2 ^ 62) :
    CarriesAll UINT64_MAX m.entries UINT64_MAX := by
  obtain ⟨n, hn, hlast, hnone⟩ := m.size_spec (hsmall m.entry (by simp [Member.entries]))
  have hothers : ∀ l : List ExtensionEntry, (∀ x ∈ l, x.entry.data.length < 2 ^ 62) →
      CarriesAll n (l.map ExtensionEntry.entry) n := by
    intro l hl
    induction l with
    | nil => rfl
    | cons x l ih =>
        exact ⟨n, x.carries (hl x List.mem_cons_self) n,
          ih fun y hy => hl y (List.mem_cons_of_mem _ hy)⟩
  have hpax : CarriesAll UINT64_MAX (m.pax.map PaxEntry.entry).toList n := by
    cases hp : m.pax with
    | none => exact (hnone hp).symm
    | some p =>
        rw [hp] at hn
        exact ⟨n, p.carries (hsmall p.entry (by simp [Member.entries, hp])) hn, rfl⟩
  refine carriesAll_append (carriesAll_append hpax (hothers m.others ?_)) ⟨UINT64_MAX, hlast, rfl⟩
  intro x hx
  apply hsmall
  simp only [Member.entries, List.mem_append, List.mem_map]
  exact .inl (.inr ⟨x, hx, rfl⟩)

theorem Archive.carries (a : Archive) (hsmall : ∀ e ∈ a.entries, e.data.length < 2 ^ 62) :
    CarriesAll UINT64_MAX a.entries UINT64_MAX := by
  have hall : ∀ members : List Member,
      (∀ e ∈ members.flatMap Member.entries, e.data.length < 2 ^ 62) →
      CarriesAll UINT64_MAX (members.flatMap Member.entries) UINT64_MAX := by
    intro members hmembers
    induction members with
    | nil => rfl
    | cons m members ih =>
        rw [List.flatMap_cons] at hmembers ⊢
        exact carriesAll_append
          (m.carries fun e he => hmembers e (List.mem_append_left _ he))
          (ih fun e he => hmembers e (List.mem_append_right _ he))
  exact hall a.members hsmall

section Walk

variable {ctx : Context} {after : Nat → List UInt8} {input : List UInt8} {c : Cursor}

/-- The walk moves over the entry that was written at the cursor. -/
theorem nextCursor_entry (rule : PaxRule) {before behind : List UInt8} {e : WrittenEntry}
    (hinput : input = before ++ (e.bytes ++ behind)) (hc : c.idx = before.length)
    (hsize : (tarEntrySize e.header c.paxNextSize).1 = e.data.length) :
    nextCursor rule input c =
      some (c.pastEntry rule (e.entry (tarEntrySize e.header c.paxNextSize).2)) := by
  have hlen := length_written hinput
  have hrecognise := recognise_written hinput hsize
  have hzero := not_zero_of_isTarHeader (isTarHeader_of_valid e.valid)
  rw [← blockAt_written hinput] at hzero
  simp only [WrittenEntry.length] at hlen
  rw [nextCursor, hc, if_neg (by omega), hzero, hrecognise]
  rfl

theorem nextCursor_written (hw : ctx.sizeBits = 64) {before behind : List UInt8}
    {e : WrittenEntry} (hinput : input = before ++ (e.bytes ++ behind))
    (hc : c.idx = before.length) {pax' : Nat} (hcarry : Carries c.paxNextSize e pax') :
    ∃ d, nextCursor (filePaxRule ctx after input) input c = some d ∧
      d.idx = (before ++ e.bytes).length ∧ d.paxNextSize = pax' ∧
      d.log.map Element.shape = c.log.map Element.shape ++
        [.entry before.length e.length (joinsNextEntry e.header) 0] := by
  have hlen := length_written hinput
  have hrule : filePaxRule ctx after input c (e.entry (tarEntrySize e.header c.paxNextSize).2) =
      pax' := by
    rw [← hcarry.2 (after (before.length + 512 + e.data.length))]
    simp only [filePaxRule, WrittenEntry.entry, hc, hw]
    by_cases hx : e.header.typeflag = 0x78
    · have hnone : e.extensions = [] := by
        have hchained := e.chained
        have hkind : isExtensionHeader e.header = true := by simp [isExtensionHeader, hx]
        rwa [hasSparseExtension_of_extension hkind, if_neg (by decide)] at hchained
      have hround := le_roundUp e.data.length
      have hdata : (input.drop (before.length + 512)).take e.data.length = e.data := by
        rw [chunk_written hinput (by simp only [WrittenEntry.length]; omega), WrittenEntry.bytes,
          hnone, List.flatten_nil, List.nil_append, ← e.header.size_eq, List.drop_left,
          List.take_left]
      rw [hdata]
    · simp [hx]
  refine ⟨_, nextCursor_entry (filePaxRule ctx after input) hinput hc hcarry.1, ?_, hrule, ?_⟩
  · rw [List.length_append, e.length_bytes, Cursor.pastEntry, hc]
    rfl
  · simp [Cursor.pastEntry, Element.shape, hc, WrittenEntry.entry]
    rfl

/-- The walk moves over all the entries that were written. -/
theorem reaches_written (hw : ctx.sizeBits = 64) (l : List WrittenEntry)
    (before behind : List UInt8)
    (hinput : input = before ++ (l.flatMap WrittenEntry.bytes ++ behind))
    (hc : c.idx = before.length) {pax' : Nat} (hcarry : CarriesAll c.paxNextSize l pax') :
    ∃ d, Reaches (filePaxRule ctx after input) input c d ∧
      d.idx = (before ++ l.flatMap WrittenEntry.bytes).length ∧ d.paxNextSize = pax' ∧
      d.log.map Element.shape =
        c.log.map Element.shape ++ writtenElements before.length l := by
  induction l generalizing before c with
  | nil => exact ⟨c, .refl, by simpa using hc, hcarry, by simp [writtenElements]⟩
  | cons e l ih =>
      obtain ⟨between, hfirst, hrest⟩ := hcarry
      rw [List.flatMap_cons, List.append_assoc] at hinput
      obtain ⟨d, hnext, hidx, hpax, hlog⟩ :=
        @nextCursor_written ctx after input c hw before _ e hinput hc _ hfirst
      obtain ⟨f, hreach, hidx', hpax', hlog'⟩ := ih (before ++ e.bytes)
        (by rw [hinput]; simp) hidx (by rwa [hpax])
      refine ⟨f, .head hnext hreach, ?_, hpax', ?_⟩
      · rw [hidx', List.flatMap_cons, List.append_assoc]
      · rw [hlog', hlog, writtenElements, List.length_append, e.length_bytes, List.append_assoc]
        rfl

/-- The walk moves over null blocks one by one. -/
theorem reaches_nulls (rule : PaxRule) (n : Nat) (before : List UInt8)
    (hinput : input = before ++ List.replicate (512 * n) 0) (hc : c.idx = before.length) :
    ∃ d, Reaches rule input c d ∧ d.idx = input.length ∧
      d.log = c.log ++ nullElements before.length n := by
  induction n generalizing before c with
  | zero => exact ⟨c, .refl, by simpa [hinput] using hc, by simp [nullElements]⟩
  | succ n ih =>
      have hsplit : input = (before ++ List.replicate 512 0) ++ List.replicate (512 * n) 0 := by
        rw [hinput, List.append_assoc, List.replicate_append_replicate, Nat.mul_succ, Nat.add_comm]
      have hlen := congrArg List.length hsplit
      rw [List.length_append, List.length_append, List.length_replicate,
        List.length_replicate] at hlen
      have hblock : blockAt input before.length = List.replicate 512 0 := by
        rw [blockAt, hsplit, List.append_assoc, List.drop_left, List.take_append_of_le_length,
          List.take_of_length_le]
        · rw [List.length_replicate]
        · rw [List.length_replicate]
      have hzero : isZeroTarBlock (List.replicate 512 0) = true := by
        rw [isZeroTarBlock, List.all_replicate]
        rfl
      have hnext : nextCursor rule input c = some c.pastNull := by
        rw [nextCursor, hc, if_neg (by omega), hblock, hzero, if_pos rfl]
      obtain ⟨d, hreach, hidx, hlog⟩ := @ih c.pastNull (before ++ List.replicate 512 0) hsplit
        (by rw [List.length_append, List.length_replicate, ← hc]; rfl)
      refine ⟨d, .head hnext hreach, hidx, ?_⟩
      rw [hlog, List.length_append, List.length_replicate, nullElements, Cursor.pastNull, hc,
        List.append_assoc]
      rfl

end Walk

theorem Archive.data_lt (a : Archive) (hn : a.bytes.length < 2 ^ 62) :
    ∀ e ∈ a.entries, e.data.length < 2 ^ 62 := by
  intro e he
  have hle : e.bytes.length ≤ (a.entries.flatMap WrittenEntry.bytes).length := by
    obtain ⟨l, m, hlm⟩ := List.append_of_mem he
    rw [hlm]
    simp only [List.flatMap_append, List.flatMap_cons, List.length_append]
    omega
  have hround := le_roundUp e.data.length
  rw [e.length_bytes, WrittenEntry.length] at hle
  simp only [Archive.bytes, List.length_append] at hn
  omega

theorem Archive.entries_ne_nil (a : Archive) : a.entries ≠ [] := by
  obtain ⟨m, members, hm⟩ := List.exists_cons_of_ne_nil a.nonempty
  simp [Archive.entries, hm, Member.entries]

theorem nullElements_shape (start n : Nat) :
    (nullElements start n).map Element.shape = nullElements start n := by
  induction n generalizing start with
  | zero => rfl
  | succ n ih => simp only [nullElements, List.map_cons, ih, Element.shape]

section Ends

theorem length_entries (l : List WrittenEntry) :
    (l.flatMap WrittenEntry.bytes).length = (l.map WrittenEntry.length).sum := by
  induction l with
  | nil => rfl
  | cons e l ih =>
      rw [List.flatMap_cons, List.length_append, e.length_bytes, ih, List.map_cons, List.sum_cons]

/-- Extended headers end no group; the entry of the member may. -/
theorem groupEnds_entries (l : List WrittenEntry) (e : WrittenEntry) (tail : List Element)
    (start : Nat) (hjoins : ∀ x ∈ l, joinsNextEntry x.header = true) :
    Blocking.groupEnds start (spans (writtenElements start (l ++ [e]) ++ tail)) =
      (if joinsNextEntry e.header then []
        else [start + ((l ++ [e]).map WrittenEntry.length).sum]) ++
      Blocking.groupEnds (start + ((l ++ [e]).map WrittenEntry.length).sum) (spans tail) := by
  induction l generalizing start with
  | nil =>
      simp only [List.nil_append, writtenElements, List.cons_append, spans_cons,
        Blocking.groupEnds, Element.joins_entry, Element.length_entry, List.map_cons, List.map_nil,
        List.sum_cons, List.sum_nil, Nat.add_zero]
      split <;> rfl
  | cons x l ih =>
      have hx := hjoins x List.mem_cons_self
      have hrest := ih (start + x.length) fun y hy => hjoins y (List.mem_cons_of_mem _ hy)
      simp only [List.cons_append, writtenElements, spans_cons, Blocking.groupEnds,
        Element.joins_entry, Element.length_entry, hx, if_true, hrest, List.map_cons, List.sum_cons,
        Nat.add_assoc]

theorem writtenElements_append (l m : List WrittenEntry) (start : Nat) :
    writtenElements start (l ++ m) =
      writtenElements start l ++ writtenElements (start + (l.map WrittenEntry.length).sum) m := by
  induction l generalizing start with
  | nil => simp [writtenElements]
  | cons e l ih => simp [writtenElements, ih, Nat.add_assoc]

theorem groupEnds_members (members : List Member) (tail : List Element) (start : Nat) :
    Blocking.groupEnds start
        (spans (writtenElements start (members.flatMap Member.entries) ++ tail)) =
      memberEnds start members ++ Blocking.groupEnds
        (start + ((members.flatMap Member.entries).map WrittenEntry.length).sum) (spans tail) := by
  induction members generalizing start with
  | nil => simp [writtenElements, memberEnds]
  | cons m members ih =>
      have hjoins : ∀ x ∈ (m.pax.map PaxEntry.entry).toList ++ m.others.map ExtensionEntry.entry,
          joinsNextEntry x.header = true := by
        intro x hx
        apply joinsNextEntry_of_extension
        rw [List.mem_append, Option.mem_toList, Option.map_eq_some_iff, List.mem_map] at hx
        cases hx with
        | inl hpax =>
            obtain ⟨p, -, rfl⟩ := hpax
            exact p.isExtension
        | inr hother =>
            obtain ⟨o, -, rfl⟩ := hother
            exact o.isExtension.1
      rw [List.flatMap_cons, writtenElements_append, List.append_assoc]
      simp only [Member.entries] at ih ⊢
      rw [groupEnds_entries _ _ _ _ hjoins, ih]
      simp only [memberEnds, Member.entries, List.map_append, List.sum_append, Nat.add_assoc]
      split <;> simp

theorem groupEnds_nulls (n start : Nat) :
    Blocking.groupEnds start (spans (nullElements start n)) =
      if n = 0 then [] else [start + 512 * n] := by
  induction n generalizing start with
  | zero => rfl
  | succ n ih =>
      rw [nullElements, spans_cons, Blocking.groupEnds, Element.length_null, ih]
      cases n with
      | zero => rfl
      | succ n =>
          simp [nullElements, Element.isNull]
          omega

/-- The groups of the elements are the members. -/
theorem Archive.groupEnds_elements (a : Archive) : groupEnds a.elements = a.ends := by
  rw [groupEnds, Archive.elements, Archive.entries, groupEnds_members, length_entries,
    Nat.zero_add, groupEnds_nulls, Archive.ends, Archive.bytes, List.length_append,
    List.length_replicate, Archive.entries, length_entries]

end Ends

/-- A walk that has come past the entries of an archive gets past its null blocks too. -/
theorem Archive.reaches_end (a : Archive) {rule : PaxRule} {c : Cursor}
    (hreach : Reaches rule a.bytes .init c)
    (hidx : c.idx = (a.entries.flatMap WrittenEntry.bytes).length)
    (hlog : c.log.map Element.shape = writtenElements 0 a.entries) :
    ∃ d, Reaches rule a.bytes .init d ∧ d.idx = a.bytes.length ∧ d.log ≠ [] ∧
      d.log.map Element.shape = a.elements := by
  obtain ⟨d, hnulls, hend, hlogd⟩ := @reaches_nulls a.bytes c rule a.nulls
    (a.entries.flatMap WrittenEntry.bytes) rfl hidx
  have hshapes : d.log.map Element.shape = a.elements := by
    rw [hlogd, List.map_append, hlog, nullElements_shape]
    rfl
  refine ⟨d, hreach.trans hnulls, hend, ?_, hshapes⟩
  intro hnil
  rw [hnil] at hshapes
  obtain ⟨e, l, hl⟩ := List.exists_cons_of_ne_nil a.entries_ne_nil
  simp [Archive.elements, hl, writtenElements] at hshapes

/-- The walk of the file path over an archive. -/
theorem Archive.reaches {ctx : Context} (hw : ctx.sizeBits = 64) (after : Nat → List UInt8)
    (a : Archive) (hn : a.bytes.length < 2 ^ 62) :
    ∃ d, Reaches (filePaxRule ctx after a.bytes) a.bytes .init d ∧ d.idx = a.bytes.length ∧
      d.log ≠ [] ∧ d.log.map Element.shape = a.elements := by
  obtain ⟨c, hreach, hidx, -, hlog⟩ := @reaches_written ctx after a.bytes .init hw a.entries []
    (List.replicate (512 * a.nulls) 0) rfl rfl _ (a.carries (a.data_lt hn))
  exact a.reaches_end hreach hidx hlog

/-- The file path accepts what a writer wrote, finds the elements that were
written, and its groups are the members. -/
theorem compressMapped_archive {ctx : Context} (hw : ctx.sizeBits = 64)
    (htar : ctx.rawMode = false) (after : Nat → List UInt8) (a : Archive)
    (hn : a.bytes.length < 2 ^ 62) :
    ∃ s, compressMapped ctx after a.bytes = some (.returned s) ∧
      s.log.map Element.shape = a.elements ∧ groupEnds s.log = a.ends := by
  obtain ⟨r, r', hr, hscan, hret, hlog, -⟩ := compressMapped_scans htar (room_of_bits hw hn) after
  obtain ⟨d, hreach, hidx, hne, hlogs⟩ := a.reaches hw after hn
  obtain rfl := hscan.unique (hreach.runs (.done (scanStep_of_end hidx hne)))
  cases r with
  | exited e s => cases hret
  | returned s =>
      have hlog' : s.log = d.log := hlog
      refine ⟨s, hr, by rw [hlog', hlogs], ?_⟩
      rw [hlog', ← a.groupEnds_elements, groupEnds, groupEnds, ← spans_shape, hlogs]

theorem compressMapped_archive_sample :
    ∃ s, compressMapped sampleContext (fun _ => []) sampleArchive.bytes = some (.returned s) ∧
      s.log.map Element.shape = sampleArchive.elements ∧
      groupEnds s.log = sampleArchive.ends ∧ sampleArchive.ends = [2048, 4608, 5632] := by
  obtain ⟨s, hs, helements, hends⟩ :=
    @compressMapped_archive sampleContext rfl rfl (fun _ => []) sampleArchive
      sampleArchive_lt
  refine ⟨s, hs, helements, hends, ?_⟩
  rw [Archive.ends, sampleArchive_length]
  decide +kernel

/-- An empty file and the two null blocks that end an archive. -/
def emptyFileArchive : Archive where
  members := [{
    pax := none
    others := []
    entry := emptyFile
    ordinary := by decide +kernel
    size := .octal emptyFileHeader_size }]
  nonempty := List.cons_ne_nil _ _
  nulls := 2

end T2sz
