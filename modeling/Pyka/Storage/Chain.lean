import Pyka.Storage.SegmentSpec

/-!
# What a log's directory stores

The records of a log, in order, are cut into chunks, one for each segment
file, and a file is named by how many records come before it. All files but
the last are sealed: not empty, complete and durable. The last may end in torn
bytes.

`Stored v rss rs t d` says so of the `.log` files: `rss` are the sealed
chunks, `rs` the records of the tail, `t` the torn bytes behind them and `d`
what of the tail is durable. Nothing here mentions a log in memory; this is
the part that survives a crash (`Stored.crash`).

## Three strengths

`Filed` says of files that they hold their chunks, and is what a read needs.
`Sealed` adds that they are durable and small enough to be indexed, which is
what a crash and an opening need. `Stored` adds the tail, whose file may be
missing altogether when nothing was made durable in it. The files are given as
a function from names, as look-ups see them, so an update of one file is
`Function.update` and the others are untouched by computation.

## What a crash leaves

Sealed files are durable and come out of a crash as they were. Of the tail so
many bytes are left, at least those that are durable, and they end in a torn
rest wherever the cut is; or its file is gone, if it was never synced. Both
are again a chain, with a shorter list of records: the first so many, and no
others.
-/

namespace Pyka

open Struct (Bytes)
open Record (framing)

/-- The base offsets of a chain of sealed chunks and a tail. -/
def chainBases : ℤ → List (List Record) → List ℤ
  | base, [] => [base]
  | base, rs :: rss => base :: chainBases (base + rs.length) rss

/-- One chunk more has its base where the others end. -/
theorem chainBases_append (base : ℤ) (rss : List (List Record)) (rs : List Record) :
    chainBases base (rss ++ [rs])
      = chainBases base rss ++ [base + (rss.flatten.length + rs.length : ℕ)] := by
  induction rss generalizing base with
  | nil => simp [chainBases]
  | cons c rss ih =>
    rw [List.cons_append, chainBases, ih, chainBases, List.cons_append, List.flatten_cons,
      List.length_append]
    congr 3
    push_cast
    ring

/-- The bases lie between the base of the chain and the base of the tail. -/
theorem mem_chainBases {base b : ℤ} {rss : List (List Record)} (h : b ∈ chainBases base rss) :
    base ≤ b ∧ b ≤ base + rss.flatten.length := by
  induction rss generalizing base with
  | nil =>
    rw [chainBases, List.mem_singleton] at h
    simp [h]
  | cons c rss ih =>
    rw [chainBases, List.mem_cons] at h
    rw [List.flatten_cons, List.length_append]
    rcases h with rfl | h
    · constructor <;> push_cast <;> omega
    · obtain ⟨h₁, h₂⟩ := ih h
      push_cast
      constructor <;> omega

/-- The base of the tail is the last of them. -/
theorem tail_mem_chainBases (base : ℤ) (rss : List (List Record)) :
    base + rss.flatten.length ∈ chainBases base rss := by
  induction rss generalizing base with
  | nil => simp [chainBases]
  | cons c rss ih =>
    rw [chainBases, List.flatten_cons, List.length_append]
    refine List.mem_cons_of_mem _ ?_
    have := ih (base + c.length)
    rwa [show base + ((c.length + rss.flatten.length : ℕ) : ℤ)
      = base + c.length + rss.flatten.length by push_cast; ring]

/-- Chunks that are not empty have increasing bases. -/
theorem chainBases_pairwise {base : ℤ} {rss : List (List Record)} (h : ∀ rs ∈ rss, rs ≠ []) :
    (chainBases base rss).Pairwise (· < ·) := by
  induction rss generalizing base with
  | nil => exact List.pairwise_singleton _ _
  | cons c rss ih =>
    refine List.pairwise_cons.mpr ⟨fun b hb => ?_, ih fun rs hrs =>
      h rs (List.mem_cons_of_mem _ hrs)⟩
    have hc := List.length_pos_iff.mpr (h c List.mem_cons_self)
    have := (mem_chainBases hb).1
    omega

variable [Crc32]

/-- **The files of chunks**: each holds its records and nothing else. -/
def Filed (v : ℤ → Option File) : ℤ → List (List Record) → Prop
  | _, [] => True
  | base, rs :: rss =>
    (rs ≠ [] ∧ ∃ f, v base = some f ∧ f.content = framing.encAll rs)
    ∧ Filed v (base + rs.length) rss

namespace Filed

variable {v v' : ℤ → Option File} {base : ℤ} {rss : List (List Record)} {rs : List Record}

/-- Chunks with files are not empty, so no two of them have one name. -/
theorem nonempty (h : Filed v base rss) : ∀ rs ∈ rss, rs ≠ [] := by
  induction rss generalizing base with
  | nil => simp
  | cons c rss ih => exact List.forall_mem_cons.mpr ⟨h.1.1, ih h.2⟩

/-- Only the bytes in the files below the tail matter. -/
theorem congr (h : Filed v base rss)
    (hv : ∀ b, base ≤ b → b < base + rss.flatten.length →
      (v' b).map File.content = (v b).map File.content) :
    Filed v' base rss := by
  induction rss generalizing base with
  | nil => trivial
  | cons c rss ih =>
    obtain ⟨⟨hne, f, hf, hcontent⟩, h⟩ := h
    have hc := List.length_pos_iff.mpr hne
    rw [List.flatten_cons, List.length_append] at hv
    push_cast at hv
    refine ⟨⟨hne, ?_⟩, ih h fun b hb hb' => hv b (by omega) (by omega)⟩
    have hbase := hv base le_rfl (by omega)
    rw [hf, Option.map_some] at hbase
    obtain ⟨f', hf', hcontent'⟩ := Option.map_eq_some_iff.mp hbase
    exact ⟨f', hf', hcontent'.trans hcontent⟩

theorem append_iff : Filed v base (rss ++ [rs]) ↔ Filed v base rss
    ∧ rs ≠ [] ∧ ∃ f, v (base + rss.flatten.length) = some f ∧ f.content = framing.encAll rs := by
  induction rss generalizing base with
  | nil => simp [Filed]
  | cons c rss ih =>
    rw [List.cons_append, Filed, Filed, ih, List.flatten_cons, List.length_append,
      show base + ((c.length + rss.flatten.length : ℕ) : ℤ)
        = base + c.length + rss.flatten.length by push_cast; ring, and_assoc (b := Filed _ _ _)]

end Filed

/-- **The files of sealed chunks**: each holds its records and nothing
else, durably. -/
def Sealed (v : ℤ → Option File) : ℤ → List (List Record) → Prop
  | _, [] => True
  | base, rs :: rss =>
    (rs ≠ [] ∧ (framing.encAll rs).length ≤ maxU32 + 1
      ∧ v base = some ⟨framing.encAll rs, some (framing.encAll rs).length⟩)
    ∧ Sealed v (base + rs.length) rss

namespace Sealed

variable {v v' : ℤ → Option File} {base : ℤ} {rss : List (List Record)} {rs : List Record}

theorem nonempty (h : Sealed v base rss) : ∀ rs ∈ rss, rs ≠ [] := by
  induction rss generalizing base with
  | nil => simp
  | cons c rss ih => exact List.forall_mem_cons.mpr ⟨h.1.1, ih h.2⟩

/-- Sealed chunks are in their files. -/
theorem filed (h : Sealed v base rss) : Filed v base rss := by
  induction rss generalizing base with
  | nil => trivial
  | cons c rss ih => exact ⟨⟨h.1.1, _, h.1.2.2, rfl⟩, ih h.2⟩

/-- A sealed file is not larger than an index can cover. -/
theorem small (h : Sealed v base rss) :
    ∀ rs ∈ rss, (framing.encAll rs).length ≤ maxU32 + 1 := by
  induction rss generalizing base with
  | nil => simp
  | cons c rss ih => exact List.forall_mem_cons.mpr ⟨h.1.2.1, ih h.2⟩

/-- Only the files below the tail matter. -/
theorem congr (h : Sealed v base rss)
    (hv : ∀ b, base ≤ b → b < base + rss.flatten.length → v' b = v b) :
    Sealed v' base rss := by
  induction rss generalizing base with
  | nil => trivial
  | cons c rss ih =>
    obtain ⟨⟨hne, hsmall, hf⟩, h⟩ := h
    have hc := List.length_pos_iff.mpr hne
    rw [List.flatten_cons, List.length_append] at hv
    push_cast at hv
    refine ⟨⟨hne, hsmall, ?_⟩, ih h fun b hb hb' => hv b (by omega) (by omega)⟩
    rw [hv base le_rfl (by omega), hf]

theorem append_iff : Sealed v base (rss ++ [rs]) ↔ Sealed v base rss
    ∧ rs ≠ [] ∧ (framing.encAll rs).length ≤ maxU32 + 1
      ∧ v (base + rss.flatten.length)
        = some ⟨framing.encAll rs, some (framing.encAll rs).length⟩ := by
  induction rss generalizing base with
  | nil => simp [Sealed]
  | cons c rss ih =>
    rw [List.cons_append, Sealed, Sealed, ih, List.flatten_cons, List.length_append,
      show base + ((c.length + rss.flatten.length : ℕ) : ℤ)
        = base + c.length + rss.flatten.length by push_cast; ring, and_assoc (b := Sealed _ _ _)]

end Sealed

/-- The names of a chain are names of files, the tail's being one. -/
theorem isSome_of_mem_chainBases {v : ℤ → Option File} {base : ℤ} {rss : List (List Record)}
    (h : Sealed v base rss) (htail : (v (base + rss.flatten.length)).isSome) {b : ℤ}
    (hb : b ∈ chainBases base rss) : (v b).isSome := by
  induction rss generalizing base with
  | nil =>
    rw [chainBases, List.mem_singleton] at hb
    rw [hb]
    simpa using htail
  | cons c rss ih =>
    rw [chainBases, List.mem_cons] at hb
    rcases hb with rfl | hb
    · rw [h.1.2.2]
      rfl
    · refine ih h.2 ?_ hb
      rwa [List.flatten_cons, List.length_append, Nat.cast_add, ← add_assoc] at htail

/-- **What a directory stores**: `rss` sealed, then `rs` in the tail with
torn bytes `t` behind, of which `d` is durable. -/
structure Stored (v : ℤ → Option File) (rss : List (List Record)) (rs : List Record)
    (t : Bytes) (d : Option ℕ) : Prop where
  valid : ∀ r ∈ rss.flatten ++ rs, r.Encodable
  consecutive : Consecutive 0 (rss.flatten ++ rs)
  sealed : Sealed v 0 rss
  /-- A tail that is missing is an empty tail. -/
  tail : (v rss.flatten.length).getD File.empty = ⟨framing.encAll rs ++ t, d⟩
  /-- Only an empty log has no file at all. -/
  tail_isSome : rss ≠ [] → (v rss.flatten.length).isSome
  torn : Record.Torn t
  small : (framing.encAll rs ++ t).length ≤ maxU32 + 1
  /-- What is durable ends where a record does. -/
  durable : ∃ n, (framing.encAll (rs.take n)).length = d.getD 0
  names : ∀ b, (v b).isSome → b ∈ chainBases 0 rss

/-- A directory without files stores no records. -/
theorem stored_empty {v : ℤ → Option File} (h : ∀ b, v b = none) :
    Stored v [] [] [] none where
  valid := by simp
  consecutive := trivial
  sealed := trivial
  tail := by rw [h]; rfl
  tail_isSome h := absurd rfl h
  torn := Record.torn_nil
  small := Nat.zero_le _
  durable := ⟨0, rfl⟩
  names b hb := by rw [h] at hb; cases hb

namespace Stored

variable {v : ℤ → Option File} {rss : List (List Record)} {rs : List Record} {t : Bytes}
  {d : Option ℕ}

/-- **The tail rewritten**: opening, writing, syncing are all of this kind. -/
theorem setTail (h : Stored v rss rs t d) {rs' : List Record} {t' : Bytes} {d' : Option ℕ}
    (hvalid : ∀ r ∈ rs', r.Encodable) (hcons : Consecutive rss.flatten.length rs')
    (htorn : Record.Torn t') (hsmall : (framing.encAll rs' ++ t').length ≤ maxU32 + 1)
    (hdurable : ∃ n, (framing.encAll (rs'.take n)).length = d'.getD 0) :
    Stored (Function.update v rss.flatten.length (some ⟨framing.encAll rs' ++ t', d'⟩))
      rss rs' t' d' where
  valid r hr := by
    rcases List.mem_append.mp hr with hr | hr
    · exact h.valid r (List.mem_append_left _ hr)
    · exact hvalid r hr
  consecutive := by
    rw [Consecutive.append_iff, zero_add]
    exact ⟨(Consecutive.append_iff.mp h.consecutive).1, hcons⟩
  sealed := h.sealed.congr fun b _ hb => Function.update_of_ne (by omega) _ _
  tail := by rw [Function.update_self]; rfl
  tail_isSome _ := by rw [Function.update_self]; rfl
  torn := htorn
  small := hsmall
  durable := hdurable
  names b hb := by
    by_cases hbt : b = rss.flatten.length
    · rw [hbt]
      have := tail_mem_chainBases 0 rss
      rwa [zero_add] at this
    · rw [Function.update_of_ne hbt] at hb
      exact h.names b hb

/-- The records of the tail can be encoded. -/
theorem valid_tail (h : Stored v rss rs t d) : ∀ r ∈ rs, r.Encodable :=
  fun r hr => h.valid r (List.mem_append_right _ hr)

/-- The records of the tail count up from its base. -/
theorem consecutive_tail (h : Stored v rss rs t d) : Consecutive rss.flatten.length rs := by
  have := (Consecutive.append_iff.mp h.consecutive).2
  rwa [zero_add] at this

/-- What is durable is a number of whole records. -/
theorem durable_whole (h : Stored v rss rs t d) :
    (framing.encAll (rs.take (framing.whole rs (d.getD 0)))).length = d.getD 0 := by
  obtain ⟨n, hn⟩ := h.durable
  have hle := ((framing.le_whole_iff rs (d.getD 0) _).mp le_rfl).2
  rcases le_total n rs.length with hlen | hlen
  · have hw := (framing.le_whole_iff rs (d.getD 0) n).mpr ⟨hlen, hn.le⟩
    exact le_antisymm hle (hn.symm.le.trans (framing.length_encAll_take_le rs hw))
  · rw [List.take_of_length_le hlen] at hn
    rw [framing.whole_of_length_le rs hn.le, List.take_length, hn]

/-- A cut that spares what is durable spares the records it covers. -/
theorem durable_take (h : Stored v rss rs t d) {k : ℕ} (hk : d.getD 0 ≤ k) :
    framing.whole rs (d.getD 0) ≤ framing.whole rs k
      ∧ ∃ n, (framing.encAll ((rs.take (framing.whole rs k)).take n)).length = d.getD 0 := by
  have hw : framing.whole rs (d.getD 0) ≤ framing.whole rs k := framing.whole_mono rs hk
  refine ⟨hw, framing.whole rs (d.getD 0), ?_⟩
  rw [List.take_take, Nat.min_eq_left hw, h.durable_whole]

/-- **The tail sealed**: with no torn bytes and all of it durable, it is one
sealed chunk more, before an empty tail. -/
theorem sealTail (h : Stored v rss rs [] (some (framing.encAll rs).length)) (hne : rs ≠ []) :
    Stored (Function.update v (rss.flatten.length + rs.length : ℕ) (some File.empty))
      (rss ++ [rs]) [] [] none := by
  have hpos := List.length_pos_iff.mpr hne
  have htail : v rss.flatten.length
      = some ⟨framing.encAll rs, some (framing.encAll rs).length⟩ := by
    have htail := h.tail
    cases hv : v rss.flatten.length with
    | none =>
      rw [hv, List.append_nil] at htail
      have := congrArg File.durable htail
      cases this
    | some f =>
      rw [hv, List.append_nil] at htail
      exact congrArg some htail
  have hflat : (rss ++ [rs]).flatten = rss.flatten ++ rs := by simp
  have hlen : (rss ++ [rs]).flatten.length = rss.flatten.length + rs.length := by
    rw [hflat, List.length_append]
  have hsmall := h.small
  rw [List.append_nil] at hsmall
  refine ⟨?_, ?_, ?_, ?_, ?_, Record.torn_nil, Nat.zero_le _,
    ⟨0, rfl⟩, ?_⟩
  · rw [hflat, List.append_nil]
    exact h.valid
  · rw [hflat, List.append_nil]
    exact h.consecutive
  · refine Sealed.append_iff.mpr ⟨h.sealed.congr fun b _ hb => Function.update_of_ne ?_ _ _,
      hne, hsmall, ?_⟩
    · push_cast
      omega
    · rw [zero_add, Function.update_of_ne (by push_cast; omega), htail]
  · rw [hlen, Function.update_self]
    rfl
  · intro _
    rw [hlen, Function.update_self]
    rfl
  · intro b hb
    rw [chainBases_append]
    by_cases hbt : b = ((rss.flatten.length + rs.length : ℕ) : ℤ)
    · rw [hbt, zero_add]
      exact List.mem_append_right _ (List.mem_singleton_self _)
    · rw [Function.update_of_ne hbt] at hb
      exact List.mem_append_left _ (h.names b hb)

/-! ## Crashes

What `File.Crash` allows is looked at file by file: a durable one stays, one
that is not there does not appear, and the tail is cut. -/

omit [Crc32] in
/-- A crash leaves a durable file as it is. -/
theorem crash_of_durable {o : Option File} {bs : Bytes}
    (h : File.Crash (some ⟨bs, some bs.length⟩) o) : o = some ⟨bs, some bs.length⟩ := by
  cases h with
  | lost h => cases h
  | cut k h =>
    have hk : bs.length ≤ k := h
    show some (File.mk (bs.take k) _) = _
    rw [List.take_of_length_le hk]

/-- Sealed chunks are sealed after a crash. -/
theorem sealed_crash {v' : ℤ → Option File} {base : ℤ} (h : Sealed v base rss)
    (hcrash : ∀ b, File.Crash (v b) (v' b)) : Sealed v' base rss := by
  induction rss generalizing base with
  | nil => trivial
  | cons c rss ih =>
    obtain ⟨⟨hne, hsmall, hf⟩, h⟩ := h
    have hc := hcrash base
    rw [hf] at hc
    exact ⟨⟨hne, hsmall, crash_of_durable hc⟩, ih h⟩

omit [Crc32] in
/-- A crash makes no file appear. -/
theorem isSome_of_crash {o o' : Option File} (h : File.Crash o o') (hs : o'.isSome) :
    o.isSome := by
  cases h with
  | absent => cases hs
  | lost => cases hs
  | cut => rfl

/-- No more of a file is durable than there is of it. -/
theorem kept_le {base b : ℤ} {f : File} (hsealed : Sealed v base rss)
    (htail : (v (base + rss.flatten.length)).getD File.empty = ⟨framing.encAll rs ++ t, d⟩)
    (hdurable : ∃ n, (framing.encAll (rs.take n)).length = d.getD 0)
    (hb : b ∈ chainBases base rss) (hf : v b = some f) : f.kept ≤ f.content.length := by
  induction rss generalizing base with
  | nil =>
    rw [chainBases, List.mem_singleton] at hb
    rw [List.flatten_nil, List.length_nil, Nat.cast_zero, add_zero, ← hb, hf,
      Option.getD_some] at htail
    obtain ⟨n, hn⟩ := hdurable
    rw [htail]
    show d.getD 0 ≤ (framing.encAll rs ++ t).length
    rw [← hn, ← framing.encAll_take_append_drop rs n, List.append_assoc, List.length_append]
    exact Nat.le_add_right _ _
  | cons c rss ih =>
    obtain ⟨⟨-, -, hc⟩, hsealed⟩ := hsealed
    rw [List.flatten_cons, List.length_append, Nat.cast_add, ← add_assoc] at htail
    rcases List.mem_cons.mp hb with rfl | hb
    · cases hc.symm.trans hf
      exact le_rfl
    · exact ih hsealed htail hb

/-- A crash may spare everything. -/
theorem crash_self (h : Stored v rss rs t d) (b : ℤ) : File.Crash (v b) (v b) := by
  cases hf : v b with
  | none => exact .absent
  | some f =>
    have hk := kept_le h.sealed (by rw [zero_add]; exact h.tail) h.durable
      (h.names b (by rw [hf]; rfl)) hf
    have := File.Crash.cut f.content.length hk
    rwa [List.take_length] at this

/-- **What a directory stores after a crash**: the sealed chunks, and of the
tail the records that fit in what is left of its file – or, where that file
was never made durable and is gone, the chain without it. -/
theorem crash (h : Stored v rss rs t d) {v' : ℤ → Option File}
    (hcrash : ∀ b, File.Crash (v b) (v' b)) :
    (∃ k t', d.getD 0 ≤ k
      ∧ v' rss.flatten.length = some ⟨(framing.encAll rs ++ t).take k, d⟩
      ∧ (framing.encAll rs ++ t).take k = framing.encAll (rs.take (framing.whole rs k)) ++ t'
      ∧ Stored v' rss (rs.take (framing.whole rs k)) t' d)
    ∨ (d = none ∧ v' rss.flatten.length = none ∧
        (rss = [] ∧ Stored v' [] [] [] none
          ∨ ∃ rss₀ rs₀, rss = rss₀ ++ [rs₀]
            ∧ Stored v' rss₀ rs₀ [] (some (framing.encAll rs₀).length))) := by
  have hnames : ∀ b, (v' b).isSome → b ∈ chainBases 0 rss :=
    fun b hb => h.names b (isSome_of_crash (hcrash b) hb)
  have htail := h.tail
  have hc := hcrash rss.flatten.length
  generalize hvt : v rss.flatten.length = o at hc htail
  generalize hvt' : v' rss.flatten.length = o' at hc
  have hmissing : o' = none → d = none → (rss = [] ∧ Stored v' [] [] [] none
      ∨ ∃ rss₀ rs₀, rss = rss₀ ++ [rs₀]
        ∧ Stored v' rss₀ rs₀ [] (some (framing.encAll rs₀).length)) := by
    intro ho hd
    subst ho
    rcases rss.eq_nil_or_concat with rfl | ⟨rss₀, rs₀, rfl⟩
    · refine Or.inl ⟨rfl, stored_empty fun b => ?_⟩
      by_contra hb
      have hmem := hnames b (Option.isSome_iff_ne_none.mpr hb)
      rw [chainBases, List.mem_singleton] at hmem
      rw [hmem] at hb
      exact hb (by simpa using hvt')
    · rw [List.concat_eq_append] at *
      refine Or.inr ⟨rss₀, rs₀, rfl, ?_⟩
      obtain ⟨hs, hne, hsmall, hf⟩ := Sealed.append_iff.mp (sealed_crash h.sealed hcrash)
      rw [zero_add] at hf
      have hflat : (rss₀ ++ [rs₀]).flatten = rss₀.flatten ++ rs₀ := by simp
      have hvalid := h.valid
      have hcons := h.consecutive
      rw [hflat] at hvalid hcons
      refine ⟨fun r hr => hvalid r (List.mem_append_left _ hr),
        (Consecutive.append_iff.mp hcons).1, hs, ?_, ?_, Record.torn_nil, ?_, ?_, ?_⟩
      · rw [hf, List.append_nil]
        rfl
      · intro _
        rw [hf]
        rfl
      · rwa [List.append_nil]
      · exact ⟨rs₀.length, by rw [List.take_length]; rfl⟩
      · intro b hb
        have hmem := hnames b hb
        rw [chainBases_append, List.mem_append, List.mem_singleton] at hmem
        rcases hmem with hmem | hmem
        · exact hmem
        · rw [zero_add] at hmem
          rw [hmem, ← List.length_append, ← hflat, hvt'] at hb
          cases hb
  cases hc with
  | absent =>
    rw [Option.getD_none] at htail
    have hd : d = none := (congrArg File.durable htail).symm
    exact Or.inr ⟨hd, rfl, hmissing rfl hd⟩
  | lost hf =>
    rw [Option.getD_some] at htail
    have hd : d = none := by rw [htail] at hf; exact hf
    exact Or.inr ⟨hd, rfl, hmissing rfl hd⟩
  | cut k hk =>
    rw [Option.getD_some] at htail
    subst htail
    obtain ⟨t', ht', htorn'⟩ := framing.take_encAll_append h.valid_tail
      ((Record.read_eq_none_iff t).mpr h.torn) k
    have hkept : d.getD 0 ≤ k := hk
    have htake : ∀ r ∈ rs.take (framing.whole rs k), r.Encodable :=
      fun r hr => h.valid_tail r (List.mem_of_mem_take hr)
    refine Or.inl ⟨k, t', hkept, rfl, ht', ?_⟩
    have hlen : ((framing.encAll rs ++ t).take k).length ≤ maxU32 + 1 :=
      (List.length_take_le' _ _).trans h.small
    rw [ht'] at hlen
    have htail' : v' rss.flatten.length
        = some ⟨framing.encAll (rs.take (framing.whole rs k)) ++ t', d⟩ := by
      rw [hvt', ht']
    have hstored := h.setTail htake (h.consecutive_tail.take _)
      ((Record.read_eq_none_iff t').mp htorn') hlen (h.durable_take hkept).2
    refine ⟨hstored.valid, hstored.consecutive, sealed_crash h.sealed hcrash, ?_, ?_,
      hstored.torn, hstored.small, hstored.durable, hnames⟩
    · rw [htail']
      rfl
    · intro _
      rw [htail']
      rfl

end Stored

end Pyka
