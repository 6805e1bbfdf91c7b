import Pyka.Storage.AppendOnly

/-!
# What parsing arbitrary bytes can end in

`Record.readOne` is meant to answer in three ways: a record, the end of the
stream, or `CorruptRecord`. There is a fourth. `decode` compares the size
field with the buffer and with `MAX_SIZE`, but not with the 20 bytes of
checksum, timestamp and lengths that it unpacks next; on a complete frame that
claims fewer, `struct.error` comes out of the unpacking.

`Record.Undersized` says when, exactly, and what it does to the two callers: a
segment whose scan stops at such a frame does not open, with an exception
nobody expects, and an index hint at one ends the read that followed it.

## Why it is not an accident of one input

A frame that claims fewer than twenty bytes need not be written by anybody.
Zeros are one – twelve of them claim nothing – and a file that was extended
without being written is full of them. Nor is it caught further up:
`struct.error` is neither a `CorruptRecord` nor a `ValueError`, and the
handlers that turn damage into an answer catch these.

The condition is on the bytes at which a reader stops and so is decidable. In
the three statements of `parsing_outcomes` it is the same predicate at three
places: the stream, the rest behind the records that count up, and the bytes
an index points at.
-/

namespace Pyka

open Struct (Bytes)
open Record (framing)

/-- What a call may end in: a value, or `CorruptRecord`. The end of a stream
is a value. -/
def Expected {α : Type} (res : Except PyError α) : Prop :=
  (∃ a, res = .ok a) ∨ ∃ msg, res = .error (.corruptRecord msg)

/-- Of the exceptions only one is expected. -/
theorem expected_error_iff {α : Type} {e : PyError} :
    Expected (.error e : Except PyError α) ↔ e.isCorruptRecord = true := by
  unfold Expected
  cases e <;> simp [PyError.isCorruptRecord]

variable [Crc32]

/-- **A file whose scan stops at an undersized frame**: records that count
up, and then one. -/
def StopsUndersized (base : ℤ) (content : Bytes) : Prop :=
  ∃ rs t, content = framing.encAll rs ++ t ∧ (∀ r ∈ rs, r.Encodable) ∧ Consecutive base rs
    ∧ Record.Undersized t

/-- `readOne` ends as expected except on an undersized frame. -/
theorem Record.expected_readOne_iff (f : Stream) :
    Expected (Record.readOne f).1 ↔ ¬Record.Undersized f.rest := by
  rw [Record.readOne_fst]
  cases h : Record.read f.rest with
  | ok o =>
    refine ⟨fun _ hu => ?_, fun _ => Or.inl ⟨o, rfl⟩⟩
    rw [(Record.read_eq_structError_iff _).mpr hu] at h
    cases h
  | error e =>
    have he := Record.read_eq_error h
    rw [expected_error_iff]
    split_ifs at he with hu
    · subst he
      exact ⟨fun hc => absurd hc (by decide), fun hn => absurd hu hn⟩
    · exact ⟨fun _ => hu, fun _ => he⟩

/-- **The scan of `recover`** ends as expected except where it stops at an
undersized frame. -/
theorem Segment.expected_recoverLoop_iff {name : String} {base : ℤ} {content : Bytes}
    (hlen : content.length ≤ maxU32 + 1) :
    Expected (Segment.recoverLoop name ⟨content, 0⟩ (Segment.freshIndex base) base 0)
      ↔ ¬StopsUndersized base content := by
  obtain ⟨hvalid, hsplit, hstop⟩ := framing.scan_spec content
  generalize (framing.scan content).1 = rs at hvalid hsplit
  generalize (framing.scan content).2 = t at hsplit hstop
  have hunique : ∀ rs' t', content = framing.encAll rs' ++ t' → (∀ r ∈ rs', r.Encodable) →
      Record.Undersized t' → rs' = rs ∧ t' = t := by
    intro rs' t' hc hv hu
    refine framing.scan_unique hv hvalid (fun r hr => ?_) hstop (by rw [← hc, hsplit])
    rw [Record.read_framing, (Record.read_eq_structError_iff t').mpr hu] at hr
    cases hr
  by_cases hcons : Consecutive base rs
  · obtain ⟨f', ix', hrest, -, -, -, hloop⟩ := Segment.recoverLoop_file name
      (Segment.freshIndex base) hsplit.symm hvalid rfl rfl
      (by rw [← hsplit, List.length_append] at hlen; omega) hcons
    rw [show (Segment.freshIndex base).baseOffset = base from rfl] at hloop
    have hiff : StopsUndersized base content ↔ Record.Undersized t := by
      constructor
      · rintro ⟨rs', t', hc, hv, -, hu⟩
        rwa [← (hunique rs' t' hc hv hu).2]
      · exact fun hu => ⟨rs, t, hsplit.symm, hvalid, hcons, hu⟩
    rw [hloop, hiff, ← hrest, ← Record.expected_readOne_iff, Record.readOne_fst]
    cases hread : Record.read f'.rest with
    | error e => rw [Segment.recoverLoop_error hread, expected_error_iff, expected_error_iff]
    | ok o =>
      cases o with
      | some r => rw [hrest] at hread; exact absurd hread (hstop r)
      | none =>
        rw [Segment.recoverLoop_torn ((Record.read_eq_none_iff _).mp hread)]
        exact ⟨fun _ => Or.inl ⟨none, rfl⟩, fun _ => Or.inl ⟨_, rfl⟩⟩
  · -- the scan stops at the first record out of turn
    obtain ⟨rs₁, r, rs₂, rfl, hcons₁, hoff⟩ := Consecutive.exists_gap hcons
    rw [framing.encAll_append, framing.encAll_cons, List.append_assoc, List.append_assoc] at hsplit
    obtain ⟨f', ix', hrest, -, -, -, hloop⟩ := Segment.recoverLoop_file name
      (Segment.freshIndex base) hsplit.symm (fun r hr => hvalid r (List.mem_append_left _ hr))
      rfl rfl (by rw [← hsplit, List.length_append] at hlen; omega) hcons₁
    rw [show (Segment.freshIndex base).baseOffset = base from rfl] at hloop
    obtain ⟨msg, hgap⟩ := Segment.recoverLoop_gap name ix' (framing.encAll rs₁).length
      (hvalid r (List.mem_append_right _ List.mem_cons_self)) hrest hoff
    rw [hloop, hgap]
    refine ⟨fun _ => ?_, fun _ => Or.inr ⟨msg, rfl⟩⟩
    rintro ⟨rs', t', hc, hv, hcons', hu⟩
    exact hcons ((hunique rs' t' hc hv hu).1 ▸ hcons')

/-- **When parsing ends in one of three ways**, for each of the places that
parse: reading a record off a stream does unless the stream stands at an
undersized frame; opening a segment of no more than 4 GiB does unless its
scan stops at one; and the handler around the index hint covers what the
hint's record can raise unless the hint points at one. -/
theorem parsing_outcomes :
    (∀ f : Stream, Expected (Record.readOne f).1 ↔ ¬Record.Undersized f.rest)
    ∧ (∀ (disk : Disk) (base : ℤ) (maxBytes : SegmentLimit),
        (disk.content base).length ≤ maxU32 + 1 →
        (Expected (Segment.init disk base maxBytes).1
          ↔ ¬StopsUndersized base (disk.content base)))
    ∧ ∀ (s : Segment) (dir : Dir) (offset : ℤ) (file : File),
        dir.logs.view s.baseOffset = some file →
        ((∀ e, (Record.readOne ⟨file.content, (s.index.lookup offset).2⟩).1 = .error e →
            e.isCorruptRecord = true)
          ↔ ¬Record.Undersized (file.content.drop (s.index.lookup offset).2))
        ∧ (Record.Undersized (file.content.drop (s.index.lookup offset).2) →
            s.iterFrom dir offset = ⟨[], some .structError⟩) := by
  refine ⟨Record.expected_readOne_iff, fun disk base maxBytes hlen => ?_,
    fun s dir offset file hf => ⟨?_, fun hu => ?_⟩⟩
  · rw [Segment.init_fst maxBytes.2, ← Segment.expected_recoverLoop_iff hlen]
    cases Segment.recoverLoop (Segment.logName base) ⟨disk.content base, 0⟩
      (Segment.freshIndex base) base 0 with
    | error e =>
      show Expected (.error e) ↔ _
      rw [expected_error_iff, expected_error_iff]
    | ok found => exact ⟨fun _ => Or.inl ⟨found, rfl⟩, fun _ => Or.inl ⟨_, rfl⟩⟩
  · have hexp := Record.expected_readOne_iff ⟨file.content, (s.index.lookup offset).2⟩
    rw [show Stream.rest ⟨file.content, (s.index.lookup offset).2⟩
      = file.content.drop (s.index.lookup offset).2 from rfl] at hexp
    rw [← hexp]
    cases (Record.readOne ⟨file.content, (s.index.lookup offset).2⟩).1 with
    | error e =>
      rw [expected_error_iff]
      exact ⟨fun h => h e rfl, fun h e' he => by cases he; exact h⟩
    | ok o => exact ⟨fun _ => Or.inl ⟨o, rfl⟩, fun _ e he => by cases he⟩
  · rw [Segment.iterFrom_eq hf, (Record.read_eq_structError_iff _).mpr hu]
    rfl

omit [Crc32] in
/-- Behind a whole record a frame that is cut short, and one that claims
nothing. The segment with the first opens, and that with the second does not,
as `struct.error` comes out of it; so it does out of a read that an index entry
sends there. -/
theorem parsing_outcomes_damaged : let _ := Crc32.zlib
    let torn := framing.encAll [⟨0, 5, none, none⟩] ++ (Record.frame ⟨1, 6, none, none⟩).take 10
    let undersized := framing.encAll [⟨0, 5, none, none⟩] ++ List.replicate 12 0
    Expected (Record.readOne ⟨torn, 32⟩).1
      ∧ Expected (Segment.init (Disk.of ⟨AList.singleton 0 ⟨torn, none⟩, ∅⟩) 0 4096).1
      ∧ ¬Expected (Record.readOne ⟨undersized, 32⟩).1
      ∧ ¬Expected (Segment.init (Disk.of ⟨AList.singleton 0 ⟨undersized, none⟩, ∅⟩) 0 4096).1
      ∧ Segment.iterFrom ⟨0, 4096, { Segment.freshIndex 0 with entries := [(1, 32)] }, 2, 44, false⟩
          ⟨AList.singleton 0 ⟨undersized, none⟩, ∅⟩ 1 = ⟨[], some .structError⟩ := by
  intro _ torn undersized
  obtain ⟨hread, hinit, hhint⟩ := parsing_outcomes
  let max : SegmentLimit := ⟨4096, by decide⟩
  have hvalid : ∀ r ∈ [(⟨0, 5, none, none⟩ : Record)], r.Encodable := by decide
  have hcut : ¬Record.Undersized ((Record.frame ⟨1, 6, none, none⟩).take 10) := by decide +kernel
  have hzeros : Record.Undersized (List.replicate 12 0) := by decide
  have hrest : undersized.drop 32 = List.replicate 12 0 := by decide +kernel
  refine ⟨(hread _).mpr (by decide +kernel), (hinit _ 0 max (by decide +kernel)).mpr ?_,
    fun h => (hread _).mp h (by decide +kernel), fun h => (hinit _ 0 max (by decide +kernel)).mp h
      ⟨[⟨0, 5, none, none⟩], _, rfl, hvalid, by decide, hzeros⟩, ?_⟩
  · -- the scan stops at the torn frame and at no other place
    rintro ⟨rs, t, hcontent, hvalid', -, hu⟩
    have hstop : ∀ r, framing.read t ≠ .ok (some r) := fun r => by
      rw [Record.read_framing, (Record.read_eq_structError_iff t).mpr hu]
      exact fun h => by cases h
    have htorn : ∀ r, framing.read ((Record.frame ⟨1, 6, none, none⟩).take 10) ≠ .ok (some r) :=
      fun r => by
        rw [Record.read_framing, (Record.read_eq_none_iff _).mpr (by decide +kernel)]
        exact fun h => by cases h
    obtain ⟨-, rfl⟩ := framing.scan_unique hvalid' hvalid hstop htorn hcontent.symm
    exact hcut hu
  · have hlookup : ({ Segment.freshIndex 0 with entries := [(1, 32)] } : Index).lookup 1
        = (1, 32) := by
      simp [Index.lookup, Segment.freshIndex, Bisect.bisectRight, Bisect.bisectLoop]
    refine (hhint ⟨0, 4096, { Segment.freshIndex 0 with entries := [(1, 32)] }, 2, 44, false⟩
      ⟨AList.singleton 0 ⟨undersized, none⟩, ∅⟩ 1 ⟨undersized, none⟩ rfl).2 ?_
    rw [hlookup, hrest]
    exact hzeros

omit [Crc32] in
/-- **Twelve zero bytes** are a complete frame that claims nothing:
`readOne` raises `struct.error` on them, and so does opening a segment whose
file they are. -/
theorem struct_error_of_zeros :
    (@Record.readOne Crc32.zlib ⟨List.replicate 12 0, 0⟩).1 = .error .structError
      ∧ ¬Expected (@Record.readOne Crc32.zlib ⟨List.replicate 12 0, 0⟩).1
      ∧ ¬Expected (@Segment.init Crc32.zlib
          (Disk.of ⟨AList.singleton 0 ⟨List.replicate 12 0, none⟩, ∅⟩) 0 4096).1 := by
  let _ := Crc32.zlib
  have hu : Record.Undersized (List.replicate 12 0) := by decide
  have hread : (Record.readOne ⟨List.replicate 12 0, 0⟩).1 = .error .structError := by
    rw [Record.readOne_fst]
    exact (Record.read_eq_structError_iff _).mpr hu
  refine ⟨hread, ?_, fun h => ?_⟩
  · rw [hread, expected_error_iff]
    decide
  · rw [Segment.init_fst (by decide)] at h
    have hloop : ¬Expected (Segment.recoverLoop (Segment.logName 0) ⟨List.replicate 12 0, 0⟩
        (Segment.freshIndex 0) 0 0) := by
      rw [Segment.expected_recoverLoop_iff (by decide), not_not]
      exact ⟨[], List.replicate 12 0, rfl, by simp, trivial, hu⟩
    refine hloop ?_
    have hcontent : (Disk.of ⟨AList.singleton 0 ⟨List.replicate 12 0, none⟩, ∅⟩).content 0
        = List.replicate 12 0 := rfl
    rw [hcontent] at h
    generalize Segment.recoverLoop (Segment.logName 0) ⟨List.replicate 12 0, 0⟩
      (Segment.freshIndex 0) 0 0 = res at h ⊢
    cases res with
    | error e =>
      rw [show Except.map _ (Except.error e) = Except.error e from rfl, expected_error_iff] at h
      exact expected_error_iff.mpr h
    | ok found => exact Or.inl ⟨found, rfl⟩

end Pyka
