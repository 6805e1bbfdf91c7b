import Mathlib.Data.List.Sort
import Pyka.Storage.Disk

/-!
# The data root

What a broker's disk holds: a directory for each topic, and in it the file
`topic.json` and a directory for each partition. As for a log's directory,
`Volume` carries the root together with the states it has been through: a
process that stops in the middle of an operation leaves one of them, and so
what is to survive a crash has to be shown of all.

## `topic.json`

The file says how many partitions the topic has, as JSON text. `dumps` writes
that text, and `loads` reads what `dumps` writes. No other text comes into the
file, except a part of it: `write_text` makes the file first and fills it
then, so a process that stops in between leaves it empty, and a crash of the
machine may leave any front of the text. Such a file is there, so the topic
counts as one that exists, and cannot be read (`loads_take`). For a text that
is no JSON Python raises an exception whose text is not modelled here; that it
is one, and which class it has, is all that anyone looks at.

## What is not here

A directory of the root whose name is no topic's, such as `lost+found`, is
left out: every operation asks `validateName` first, and the listing of names
filters by it. In a topic's directory the partitions are keyed by number, so
there is none whose name is a number written in another way. `mkdir` does not
fail and neither does a write: a disk that refuses is the subject of
`Storage.Faults`.
-/

namespace Pyka

/-! ## `topic.json`

The text before and after the number is fixed, so reading it back is a matter
of the digits. The closing brace, which no digit is, shows whether the text is
whole. -/

namespace TopicJson

/-- What comes before the number: the one key that the object has. -/
def opening : List Char := "\x7b\"partitions\": ".toList

/-- `json.dumps({"partitions": n})` -/
def dumps (n : ℕ) : List Char := opening ++ Nat.toDigits 10 n ++ "\x7d".toList

/-- `int(json.loads(text)["partitions"])`, of what `dumps` writes. A text that
is not of this shape is refused, as a part of one is by `json.loads`. -/
def loads (text : List Char) : Option ℕ :=
  let digits := (text.drop opening.length).dropLast
  if text.take opening.length = opening ∧ text.getLast? = some '\x7d' ∧ digits ≠ []
      ∧ digits.all Char.isDigit then
    some (Nat.ofDigitChars 10 digits 0)
  else none

/-- A number is written in digits only, so no digit of it can be taken for the
brace that closes the text. -/
theorem isDigit_toDigits (n : ℕ) : ∀ c ∈ Nat.toDigits 10 n, c.isDigit = true := fun _ hc =>
  Nat.isDigit_of_mem_toDigits (by omega) (by omega) hc

/-- **What was written is read back.** -/
@[simp] theorem loads_dumps (n : ℕ) : loads (dumps n) = some n := by
  have hclose : "\x7d".toList = ['\x7d'] := rfl
  have hdigits : ((dumps n).drop opening.length).dropLast = Nat.toDigits 10 n := by
    rw [dumps, hclose, List.append_assoc, List.drop_left, List.dropLast_concat]
  unfold loads
  simp only [hdigits]
  rw [if_pos, Nat.ofDigitChars_ten_toDigits]
  refine ⟨?_, ?_, Nat.toDigits_ne_nil, List.all_eq_true.mpr (isDigit_toDigits n)⟩
  · rw [dumps, List.append_assoc, List.take_left]
  · rw [dumps, hclose, List.getLast?_concat]

/-- **A part of what was written cannot be read**: the closing brace is the
last character and stands nowhere else. -/
theorem loads_take {n k : ℕ} (hk : k < (dumps n).length) : loads ((dumps n).take k) = none := by
  have hclose : "\x7d".toList = ['\x7d'] := rfl
  unfold loads
  refine if_neg fun h => ?_
  have hlast := List.mem_of_mem_getLast? h.2.1
  rw [dumps, hclose, List.take_append_of_le_length (by
    rw [dumps, hclose, List.length_append, List.length_singleton] at hk
    omega)] at hlast
  rcases List.mem_append.mp (List.mem_of_mem_take hlast) with hlast | hlast
  · revert hlast
    decide
  · exact absurd (isDigit_toDigits n _ hlast) (by decide)

/-- Two counts are never written alike, since each text is read back as its
own. -/
theorem dumps_injective : Function.Injective dumps := fun a b h =>
  Option.some.inj (by rw [← loads_dumps a, h, loads_dumps])

end TopicJson

/-! ## The directories

Finite maps from names and from numbers. Reading and writing are given by the
two questions asked of a root, `metaFile` and `part`; each way of changing it
has a lemma for each question, and nothing later unfolds them. -/

/-- A topic's directory: the file with its number of partitions, and the
directories of the partitions that were ever stored here. -/
structure TopicDir where
  /-- The text of `topic.json`, if the file is there. -/
  metaFile : Option (List Char)
  parts : AList (fun _ : ℕ => Dir)

/-- A topic's directory just made, before anything is in it: what `mkdir`
leaves. -/
def TopicDir.empty : TopicDir := ⟨none, ∅⟩

/-- The data root: the directories in it that have a topic's name. Whether one
of them is a topic depends on the file in it. -/
abbrev Root := AList (fun _ : String => TopicDir)

namespace Root

/-- A root with nothing in it. -/
def empty : Root := ∅

/-- The text of a topic's `topic.json`, if there is the file; a directory
without one is not a topic. -/
def metaFile (root : Root) (name : String) : Option (List Char) :=
  (root.lookup name).bind TopicDir.metaFile

/-- The directory of a partition. There may be one that the process does not
own, from a time when the cluster had another size. -/
def part (root : Root) (name : String) (p : ℕ) : Option Dir :=
  (root.lookup name).bind fun dir => dir.parts.lookup p

/-- Make a topic's directory unless it is there, and write a `topic.json` into
it, in the place of one that was there. -/
def setMeta (root : Root) (name : String) (text : List Char) : Root :=
  root.insert name { (root.lookup name).getD .empty with metaFile := some text }

/-- Put a directory in the place of a partition's. The topic's own directory
is made with it where it is missing, as `mkdir(parents=True)` does. -/
def setPart (root : Root) (name : String) (p : ℕ) (dir : Dir) : Root :=
  let topic := (root.lookup name).getD .empty
  root.insert name { topic with parts := topic.parts.insert p dir }

@[simp] theorem metaFile_empty (name : String) : empty.metaFile name = none := rfl

@[simp] theorem part_empty (name : String) (p : ℕ) : empty.part name p = none := rfl

/-- A `topic.json` just written is found, and no other is changed by it. -/
@[simp] theorem metaFile_setMeta (root : Root) (name : String) (text : List Char) (name' : String) :
    (root.setMeta name text).metaFile name'
      = if name' = name then some text else root.metaFile name' := by
  unfold metaFile setMeta
  split_ifs with h
  · rw [h, AList.lookup_insert]
    rfl
  · rw [AList.lookup_insert_ne h]

@[simp] theorem part_setMeta (root : Root) (name : String) (text : List Char) (name' : String)
    (p : ℕ) : (root.setMeta name text).part name' p = root.part name' p := by
  unfold part setMeta
  by_cases h : name' = name
  · subst h
    rw [AList.lookup_insert]
    cases root.lookup name' with
    | none => rfl
    | some dir => rfl
  · rw [AList.lookup_insert_ne h]

@[simp] theorem metaFile_setPart (root : Root) (name : String) (p : ℕ) (dir : Dir)
    (name' : String) : (root.setPart name p dir).metaFile name' = root.metaFile name' := by
  unfold metaFile setPart
  by_cases h : name' = name
  · subst h
    rw [AList.lookup_insert]
    cases root.lookup name' with
    | none => rfl
    | some dir => rfl
  · rw [AList.lookup_insert_ne h]

/-- A partition's directory is what was put there, and no other is changed by
it. -/
@[simp] theorem part_setPart (root : Root) (name : String) (p : ℕ) (dir : Dir) (name' : String)
    (p' : ℕ) : (root.setPart name p dir).part name' p'
      = if name' = name ∧ p' = p then some dir else root.part name' p' := by
  unfold part setPart
  by_cases h : name' = name
  · subst h
    rw [AList.lookup_insert, Option.bind_some]
    by_cases hp : p' = p
    · rw [if_pos ⟨rfl, hp⟩, hp]
      exact AList.lookup_insert _
    · rw [if_neg (fun h => hp h.2)]
      refine (AList.lookup_insert_ne hp).trans ?_
      cases root.lookup name' <;> rfl
  · rw [AList.lookup_insert_ne h, if_neg (fun h' => h h'.1)]

/-- The partitions that have a directory, in order: the directories of a topic
whose names are numbers, whether the process owns them or not. -/
def partsOf (root : Root) (name : String) : List ℕ :=
  match root.lookup name with
  | none => []
  | some dir => dir.parts.keys.insertionSort (· ≤ ·)

theorem mem_partsOf (root : Root) (name : String) (p : ℕ) :
    p ∈ root.partsOf name ↔ (root.part name p).isSome := by
  unfold partsOf part
  cases root.lookup name with
  | none => simp
  | some dir =>
    rw [(List.perm_insertionSort _ _).mem_iff, ← AList.mem_keys, ← AList.lookup_isSome]
    rfl

end Root

/-- A data root, with the states it has been through. The latest of `past`
comes first, as in `Disk`. -/
structure Volume where
  root : Root
  past : List Root

namespace Volume

/-- A data root as a process finds it, with nothing done to it as yet. -/
def of (root : Root) : Volume := ⟨root, []⟩

/-- Go on to another state of the root, and remember the one it was in. -/
def become (v : Volume) (root : Root) : Volume := ⟨root, v.root :: v.past⟩

/-- Go through what was done to a partition's directory: each state of the
directory is one of the root, with all that is beside it unchanged. -/
def onPart (v : Volume) (name : String) (p : ℕ) (disk : Disk) : Volume :=
  ⟨v.root.setPart name p disk.dir,
    disk.past.map (fun dir => v.root.setPart name p dir) ++ v.root :: v.past⟩

/-- The directory of a partition, as an operation finds it. Where there is
none, `Log` makes an empty one. -/
def disk (v : Volume) (name : String) (p : ℕ) : Disk :=
  .of ((v.root.part name p).getD .empty)

/-- `path.parent.mkdir(...)` and `path.write_text(json.dumps(...))`: the
file is there before its text is. -/
def writeMeta (v : Volume) (name : String) (partitions : ℕ) : Volume :=
  (v.become (v.root.setMeta name [])).become (v.root.setMeta name (TopicJson.dumps partitions))

/-- `_read_meta`: how many partitions the topic has, `none` where there is no
such file. A file that cannot be read is an exception. -/
def readMeta (v : Volume) (name : String) : Except PyError (Option ℕ) :=
  match v.root.metaFile name with
  | none => .ok none
  | some text =>
    match TopicJson.loads text with
    | some n => .ok (some n)
    | none => .error .jsonDecodeError

@[simp] theorem root_become (v : Volume) (root : Root) : (v.become root).root = root := rfl

@[simp] theorem root_onPart (v : Volume) (name : String) (p : ℕ) (disk : Disk) :
    (v.onPart name p disk).root = v.root.setPart name p disk.dir := rfl

@[simp] theorem root_writeMeta (v : Volume) (name : String) (partitions : ℕ) :
    (v.writeMeta name partitions).root = v.root.setMeta name (TopicJson.dumps partitions) := rfl

/-- What reading comes to where the file is there in full or not at all: in
that case it does not fail. -/
theorem readMeta_eq {v : Volume} {name : String} {count : Option ℕ}
    (h : v.root.metaFile name = count.map TopicJson.dumps) : v.readMeta name = .ok count := by
  unfold readMeta
  rw [h]
  cases count with
  | none => rfl
  | some n => simp

end Volume

end Pyka
