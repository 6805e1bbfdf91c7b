import Pyka.Storage.AppendOnly

/-!
# What a wrong hint can do

A read checks the bytes its index sends it to: the record found there must
carry the promised offset. That settles most wrong hints – past the end, at
the wrong record, at bytes that are no record – and all of those lead back to
byte 0. But keys and values are what producers make them, and inside of one
the bytes can be anything: a frame too short to unpack, whose `struct.error`
the read does not catch, or a record of the promised offset that was never
appended. `Misleads` is what is left of wrong hints, and
`Segment.readFrom_eq_scan_iff` says that there is nothing else.

## What is assumed, and of whom

The segment's file holds records that count up, which is what the log wrote;
of the index nothing is assumed at all, neither its order nor that its
positions are within the file. An index made by this code from this log is
sound, and never misleads; the question here is the one the source raises
itself when it calls a hint "verified, never trusted".

## Where a hint can point

The start of a record of the log leads to the right records, the one promised
or an earlier one, because what the scan yields is filtered by the offset
asked for. The end of the file and every place past it read as the end of the
stream, and the read falls back. Only the inside of a record is left
(`Segment.not_misleads_of_boundary`), and there it depends on the bytes: a
frame that stands in a value by chance or by intent is as good as a frame of
the log, checksum included.
-/

namespace Pyka

open Struct (Bytes Field)
open Record (framing)

section Codec

variable [Crc32]

/-- A read is **led by bytes to the right records** past an offset: they
decompose into records and a torn rest, and those at or past the offset are
those of the log. -/
def LeadsTo (rs : List Record) (bs : Bytes) (offset : ℤ) : Prop :=
  ∃ qs t, (∀ q ∈ qs, q.Encodable) ∧ bs = framing.encAll qs ++ t ∧ Record.Torn t
    ∧ qs.filter (fun q => decide (offset ≤ q.offset))
      = rs.filter (fun r => decide (offset ≤ r.offset))

/-- **Bytes that mislead a read** sent to them with the promise of a record:
a complete frame that claims fewer than 20 bytes, or a record that keeps the
promise, but from where the read comes to other records than the log's. -/
def Misleads (rs : List Record) (bs : Bytes) (hint offset : ℤ) : Prop :=
  Record.Undersized bs
    ∨ ∃ r : Record, r.Encodable ∧ r.frame <+: bs ∧ r.offset = hint ∧ ¬LeadsTo rs bs offset

namespace Segment

/-- A scan from a position gives the right records if the bytes there lead
to them. -/
theorem scanFrom_eq_iff_leadsTo (rs : List Record) (f : Stream) (offset : ℤ) :
    scanFrom f offset = ⟨rs.filter (fun r => decide (offset ≤ r.offset)), none⟩
      ↔ LeadsTo rs f.rest offset := by
  rw [scanFrom_eq]
  constructor
  · intro h
    obtain ⟨hrecords, hraised⟩ := Read.mk.inj h
    obtain ⟨hvalid, hjoin, hnone⟩ := framing.scan_spec f.rest
    refine ⟨_, _, hvalid, hjoin.symm, ?_, hrecords⟩
    refine (Record.read_eq_none_iff _).mp ?_
    cases hread : Record.read (framing.scan f.rest).2 with
    | error e => rw [hread] at hraised; cases hraised
    | ok o =>
      cases o with
      | none => rfl
      | some r => exact absurd hread (hnone r)
  · rintro ⟨qs, t, hvalid, hrest, htorn, hfilter⟩
    have hread : Record.read t = .ok none := (Record.read_eq_none_iff t).mpr htorn
    have ht := framing.scan_of_read_ne_some (t := t) (by simp [Record.read_framing, hread])
    rw [hrest, framing.scan_encAll_append hvalid, ht]
    simp only [List.append_nil, hfilter, hread, raisedBy]

section Log

variable {rs : List Record} {base offset : ℤ}

/-- The start of a record of the log leads to the right records. -/
theorem leadsTo_of_boundary (hvalid : ∀ r ∈ rs, r.Encodable) (hcons : Consecutive base rs) {n : ℕ}
    (hn : n ≤ rs.length) (hoff : base + n ≤ offset) :
    LeadsTo rs ((framing.encAll rs).drop (framing.encAll (rs.take n)).length) offset := by
  refine ⟨rs.drop n, [], fun r hr => hvalid r (List.mem_of_mem_drop hr), ?_, Record.torn_nil, ?_⟩
  · conv_lhs => rw [← framing.encAll_take_append_drop rs n]
    rw [List.drop_left, List.append_nil]
  · rw [hcons.filter_eq_drop, (hcons.drop hn).filter_eq_drop, List.drop_drop]
    congr 1
    omega

/-- **Only the inside of a record misleads**: a position at the start of a
record, at the end of the file or past it does not, whatever is promised. -/
theorem not_misleads_of_boundary (hvalid : ∀ r ∈ rs, r.Encodable) (hcons : Consecutive base rs)
    {pos : ℕ} {hint : ℤ} (hhint : hint ≤ offset)
    (hpos : (framing.encAll rs).length ≤ pos
      ∨ ∃ n ≤ rs.length, pos = (framing.encAll (rs.take n)).length) :
    ¬Misleads rs ((framing.encAll rs).drop pos) hint offset := by
  obtain ⟨n, hn, hdrop⟩ : ∃ n ≤ rs.length,
      (framing.encAll rs).drop pos = framing.encAll (rs.drop n) := by
    rcases hpos with hpos | ⟨n, hn, rfl⟩
    · exact ⟨rs.length, le_rfl, by rw [List.drop_eq_nil_of_le hpos, List.drop_length]; rfl⟩
    · refine ⟨n, hn, ?_⟩
      conv_lhs => rw [← framing.encAll_take_append_drop rs n]
      rw [List.drop_left]
  rw [hdrop]
  cases hd : rs.drop n with
  | nil =>
    rintro (⟨hlen, -⟩ | ⟨r, henc, hpre, -⟩)
    · simp at hlen
    · exact framing.enc_ne_nil henc (List.prefix_nil.mp hpre)
  | cons r rs' =>
    have hr : rs[n]? = some r := by
      rw [← List.head?_drop, hd]
      rfl
    have henc := hvalid r (List.mem_of_getElem? hr)
    have hread : Record.read (framing.encAll (r :: rs')) = .ok (some r) := by
      rw [framing.encAll_cons, ← Record.read_framing]
      exact framing.read_enc_append henc _
    rintro (hu | ⟨r', henc', hpre, hoff, hnot⟩)
    · rw [(Record.read_eq_structError_iff _).mpr hu] at hread
      cases hread
    · -- the record found is the one that stands there
      have hread' := (Record.read_eq_some_iff _ _).mpr ⟨henc', hpre⟩
      rw [hread] at hread'
      obtain rfl : r = r' := Option.some.inj (Except.ok.inj hread')
      refine hnot ?_
      have hle : base + n ≤ offset := by
        rw [← hcons.offset_getElem hr, hoff]
        exact hhint
      have hlead := leadsTo_of_boundary hvalid hcons hn hle
      conv at hlead => arg 2; rw [← framing.encAll_take_append_drop rs n]
      rw [List.drop_left, hd] at hlead
      exact hlead

/-- A read is as good as a scan where its look-up does not send it to bytes
that mislead it. -/
theorem readFrom_eq_iff_not_misleads {s : Segment} {dir : Dir} {f : File}
    (hf : dir.logs.view s.baseOffset = some f) (hcontent : f.content = framing.encAll rs)
    (hvalid : ∀ r ∈ rs, r.Encodable) (hcons : Consecutive s.baseOffset rs)
    (hoff : s.baseOffset ≤ offset) :
    s.readFrom dir offset = .ok ⟨(scanFrom ⟨f.content, 0⟩ offset).records, none⟩
      ↔ ¬Misleads rs (f.content.drop (s.index.lookup offset).2) (s.index.lookup offset).1
          offset := by
  have hscan : scanFrom ⟨f.content, 0⟩ offset
      = ⟨rs.filter (fun r => decide (offset ≤ r.offset)), none⟩ := by
    have hrest : Stream.rest ⟨f.content, 0⟩ = framing.encAll rs ++ [] := by
      rw [Stream.rest, List.drop_zero, hcontent, List.append_nil]
    rw [scanFrom_encAll hvalid hcons hrest Record.torn_nil, hcons.filter_eq_drop]
  unfold Segment.readFrom
  rw [if_neg (not_lt.mpr hoff), hscan, Except.ok.injEq, iterFrom_eq hf]
  generalize (s.index.lookup offset).1 = hint
  generalize hp : (s.index.lookup offset).2 = pos
  have hfrom := scanFrom_eq_iff_leadsTo rs ⟨f.content, pos⟩ offset
  rw [show Stream.rest ⟨f.content, pos⟩ = f.content.drop pos from rfl] at hfrom
  cases hread : Record.read (f.content.drop pos) with
  | error e =>
    have hnone : ¬∃ r : Record, r.Encodable ∧ r.frame <+: f.content.drop pos ∧ r.offset = hint
        ∧ ¬LeadsTo rs (f.content.drop pos) offset := by
      rintro ⟨r, henc, hpre, -⟩
      rw [(Record.read_eq_some_iff _ _).mpr ⟨henc, hpre⟩] at hread
      cases hread
    have herror := Record.read_eq_error hread
    unfold Misleads
    by_cases hu : Record.Undersized (f.content.drop pos)
    · -- the exception that comes through
      rw [if_pos hu] at herror
      simp [hu, herror, PyError.isCorruptRecord]
    · rw [if_neg hu] at herror
      simp [hu, hnone, herror, hscan]
  | ok o =>
    have hu : ¬Record.Undersized (f.content.drop pos) := fun hu => by
      rw [(Record.read_eq_structError_iff _).mpr hu] at hread
      cases hread
    cases o with
    | none =>
      have hnone : ¬∃ r : Record, r.Encodable ∧ r.frame <+: f.content.drop pos ∧ r.offset = hint
          ∧ ¬LeadsTo rs (f.content.drop pos) offset := by
        rintro ⟨r, henc, hpre, -⟩
        rw [(Record.read_eq_some_iff _ _).mpr ⟨henc, hpre⟩] at hread
        cases hread
      simp [Misleads, hu, hnone, hscan]
    | some r =>
      -- the one record there is to find
      have hone : Misleads rs (f.content.drop pos) hint offset
          ↔ r.offset = hint ∧ ¬LeadsTo rs (f.content.drop pos) offset := by
        obtain ⟨henc, hpre⟩ := (Record.read_eq_some_iff _ _).mp hread
        constructor
        · rintro (hu' | ⟨r', henc', hpre', hkeep⟩)
          · exact absurd hu' hu
          · rw [(Record.read_eq_some_iff _ _).mpr ⟨henc', hpre'⟩] at hread
            cases hread
            exact hkeep
        · exact fun hkeep => Or.inr ⟨r, henc, hpre, hkeep⟩
      rw [hone]
      simp only
      split
      · next hne => simp [hscan, hne]
      · next heq => rw [hfrom]; simp [not_not.mp heq]

omit [Crc32] in
/-- **A look-up promises nothing past the offset** it was made for, sorted or
not: the entry that it answers with was compared. -/
theorem lookup_le {ix : Index} (hbase : ix.baseOffset ≤ offset) :
    (ix.lookup offset).1 ≤ offset := by
  unfold Index.lookup
  simp only
  cases hi : Bisect.bisectRight ix.entries (offset - ix.baseOffset) fun e => (e.1 : ℤ) with
  | zero => exact hbase
  | succ i =>
    obtain ⟨e, he, hle⟩ := Bisect.key_le_of_bisectRight hi
    simp only [he]
    omega

/-- **Exactly when a read is as good as a scan from byte 0**, over a segment
whose file holds records that count up, with any index entries: when its
look-up does not send it to bytes that mislead it. Such bytes stand inside of
a record only. A hint to the start of any record, the right one or not, or to
the end of the file or past it does no harm. -/
theorem readFrom_eq_scan_iff {s : Segment} {dir : Dir} {f : File}
    (hf : dir.logs.view s.baseOffset = some f) (hcontent : f.content = framing.encAll rs)
    (hvalid : ∀ r ∈ rs, r.Encodable) (hcons : Consecutive s.baseOffset rs)
    (hoff : s.baseOffset ≤ offset) :
    (s.readFrom dir offset = .ok ⟨(scanFrom ⟨f.content, 0⟩ offset).records, none⟩
      ↔ ¬Misleads rs (f.content.drop (s.index.lookup offset).2) (s.index.lookup offset).1
          offset)
    ∧ (s.index.baseOffset = s.baseOffset →
      ((framing.encAll rs).length ≤ (s.index.lookup offset).2
        ∨ ∃ n ≤ rs.length, (s.index.lookup offset).2 = (framing.encAll (rs.take n)).length) →
      s.readFrom dir offset = .ok ⟨(scanFrom ⟨f.content, 0⟩ offset).records, none⟩) := by
  have hiff := readFrom_eq_iff_not_misleads hf hcontent hvalid hcons hoff
  refine ⟨hiff, fun hbase hpos => hiff.mpr ?_⟩
  rw [hcontent]
  exact not_misleads_of_boundary hvalid hcons (lookup_le (hbase ▸ hoff)) hpos

end Log

/-! ## A hint into a value

One record whose value is chosen, and an index whose only entry points at the
value. What the read does is then what `readOne` does on the value. -/

/-- A file of one record, with this value. -/
def valueFile (value : Bytes) : Dir :=
  ⟨AList.singleton 0 ⟨framing.encAll [⟨0, 0, none, some value⟩], none⟩, ∅⟩

/-- The segment over it, its index pointing at the value. -/
def intoValue (value : Bytes) : Segment :=
  ⟨0, 4096, { freshIndex 0 with entries := [(0, 32)] }, 1, 32 + value.length, false⟩

/-- **What stands in a value is read as if it were the log.** -/
theorem readFrom_intoValue (value : Bytes) : (intoValue value).readFrom (valueFile value) 0 =
    .ok (match Record.read value with
      | .error e => if e.isCorruptRecord
          then scanFrom ⟨framing.encAll [⟨0, 0, none, some value⟩], 0⟩ 0 else ⟨[], some e⟩
      | .ok none => scanFrom ⟨framing.encAll [⟨0, 0, none, some value⟩], 0⟩ 0
      | .ok (some r) =>
        if r.offset ≠ 0 then scanFrom ⟨framing.encAll [⟨0, 0, none, some value⟩], 0⟩ 0
        else scanFrom ⟨value, 0⟩ 0) := by
  have hdrop : (framing.encAll [⟨0, 0, none, some value⟩]).drop 32 = value := by
    rw [framing.encAll_cons, framing.encAll_nil, List.append_nil, Record.enc_framing,
      Record.frame, Option.getD_none, List.append_nil, Option.getD_some]
    exact List.drop_left' (by simp [Field.width])
  have hrest : Stream.rest ⟨framing.encAll [⟨0, 0, none, some value⟩], 32⟩
      = Stream.rest ⟨value, 0⟩ := by
    rw [Stream.rest, Stream.rest, hdrop, List.drop_zero]
  have hlook : (intoValue value).index.lookup 0 = (0, 32) := by
    simp [intoValue, Index.lookup, freshIndex, Bisect.bisectRight, Bisect.bisectLoop]
  unfold Segment.readFrom
  have hbase : ¬(0 : ℤ) < (intoValue value).baseOffset := lt_irrefl 0
  rw [if_neg hbase,
    iterFrom_eq (f := ⟨framing.encAll [⟨0, 0, none, some value⟩], none⟩) rfl, hlook]
  have hscan : scanFrom ⟨framing.encAll [⟨0, 0, none, some value⟩], 32⟩ 0
      = scanFrom ⟨value, 0⟩ 0 := by
    rw [scanFrom_eq ⟨_, 32⟩, hrest, ← scanFrom_eq]
  simp only [hdrop]
  exact hscan ▸ rfl

end Segment

end Codec

section Standard

local instance : Crc32 := Crc32.zlib

/-- A segment of two records whose index has one entry, for the second of
them. Whether the entry has the start of that record, of the other one, or a
position past the end of the file, a read from offset 1 yields the record. -/
theorem Segment.readFrom_eq_scan_iff_stored :
    ([32, 0, 99].map fun pos =>
      Segment.readFrom ⟨0, 4096, { freshIndex 0 with entries := [(1, pos)] }, 2, 64, false⟩
        ⟨AList.singleton 0 ⟨framing.encAll [⟨0, 5, none, none⟩, ⟨1, 6, none, none⟩], none⟩, ∅⟩ 1)
      = List.replicate 3 (.ok ⟨[⟨1, 6, none, none⟩], none⟩) := by
  refine List.map_eq_replicate_iff.mpr fun pos hpos => ?_
  have hvalid : ∀ r ∈ [(⟨0, 5, none, none⟩ : Record), ⟨1, 6, none, none⟩], r.Encodable := by decide
  have hcons : Consecutive 0 [(⟨0, 5, none, none⟩ : Record), ⟨1, 6, none, none⟩] := by decide
  have hf : (Dir.logs ⟨AList.singleton 0 ⟨framing.encAll [⟨0, 5, none, none⟩, ⟨1, 6, none, none⟩],
      none⟩, ∅⟩).view 0 = some ⟨framing.encAll [⟨0, 5, none, none⟩, ⟨1, 6, none, none⟩],
        none⟩ := rfl
  have hlookup : ({ freshIndex 0 with entries := [(1, pos)] } : Index).lookup 1 = (1, pos) := by
    simp [Index.lookup, freshIndex, Bisect.bisectRight, Bisect.bisectLoop]
  obtain ⟨-, hbound⟩ := readFrom_eq_scan_iff
    (s := ⟨0, 4096, { freshIndex 0 with entries := [(1, pos)] }, 2, 64, false⟩) hf rfl hvalid hcons
    (zero_le_one' ℤ)
  have hread := hbound rfl (by
    rw [hlookup]
    simp only [List.mem_cons, List.not_mem_nil, or_false] at hpos
    rcases hpos with rfl | rfl | rfl
    · exact Or.inr ⟨1, by decide, by decide +kernel⟩
    · exact Or.inr ⟨0, by decide, rfl⟩
    · exact Or.inl (by decide +kernel))
  rw [Segment.scanFrom_encAll hvalid hcons (by rw [Stream.rest, List.drop_zero, List.append_nil])
    Record.torn_nil] at hread
  exact hread

/-- **Hints that mislead.** Twelve zero bytes in a value raise
`struct.error`; a record in a value is yielded, which was never appended. -/
theorem hint_misleads :
    ((Segment.intoValue (List.replicate 12 0)).readFrom
          (Segment.valueFile (List.replicate 12 0)) 0
        = .ok ⟨[], some .structError⟩
      ∧ (Segment.scanFrom ⟨framing.encAll [⟨0, 0, none, some (List.replicate 12 0)⟩], 0⟩ 0).records
        = [⟨0, 0, none, some (List.replicate 12 0)⟩])
    ∧ (Segment.intoValue (Record.frame ⟨0, 7, none, none⟩)).readFrom
          (Segment.valueFile (Record.frame ⟨0, 7, none, none⟩)) 0
        = .ok ⟨[⟨0, 7, none, none⟩], none⟩
      ∧ (Segment.scanFrom
          ⟨framing.encAll [⟨0, 0, none, some (Record.frame ⟨0, 7, none, none⟩)⟩], 0⟩ 0).records
        = [⟨0, 0, none, some (Record.frame ⟨0, 7, none, none⟩)⟩] := by
  have hscan : ∀ r : Record, r.Encodable → r.offset = 0 →
      Segment.scanFrom ⟨framing.encAll [r], 0⟩ 0 = ⟨[r], none⟩ := by
    intro r henc hoff
    have hvalid : ∀ r' ∈ [r], r'.Encodable := by simpa using henc
    exact Segment.scanFrom_encAll hvalid (Consecutive.singleton.mpr hoff)
      (by rw [Stream.rest, List.drop_zero, List.append_nil]) Record.torn_nil 0
  have hzeros : Record.read (List.replicate 12 0) = .error .structError :=
    (Record.read_eq_structError_iff _).mpr (by decide)
  have hforged : Record.Encodable ⟨0, 7, none, none⟩ := by decide
  have hnested : Record.Encodable ⟨0, 0, none, some (Record.frame ⟨0, 7, none, none⟩)⟩ := by
    refine ⟨hforged.offset, hforged.offset, ?_⟩
    show 20 + 0 + (Record.frame ⟨0, 7, none, none⟩).length ≤ Record.maxSize
    rw [Record.length_frame]
    decide
  have hread : Record.read (Record.frame ⟨0, 7, none, none⟩) = .ok (some ⟨0, 7, none, none⟩) :=
    (Record.read_eq_some_iff _ _).mpr ⟨hforged, List.prefix_rfl⟩
  refine ⟨⟨?_, ?_⟩, ?_, ?_⟩
  · rw [Segment.readFrom_intoValue, hzeros]
    rfl
  · rw [hscan _ (by decide) rfl]
  · rw [Segment.readFrom_intoValue, hread]
    simp only [ne_eq, not_true_eq_false, if_false]
    have := hscan ⟨0, 7, none, none⟩ hforged rfl
    rw [framing.encAll_cons, framing.encAll_nil, List.append_nil] at this
    exact congrArg Except.ok this
  · rw [hscan _ hnested rfl]

end Standard

end Pyka
