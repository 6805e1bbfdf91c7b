import Mathlib.Data.List.AList
import Mathlib.Logic.Function.Basic
import Pyka.Storage.Types

/-!
# Files, directories and what a crash can do to them

A log's directory holds two files for each segment, a `.log` and an `.index`,
both named by the segment's base offset; `Dir` keeps the two kinds apart and
names a file by that offset.

## The states an operation goes through

An operation makes its calls one after the other, so a crash can find the
directory in any of the states between two of them. `Disk` carries a directory
together with the states it has been through, and `Disk.Always P` says that
`P` held in all of them of the `.log` files, as look-ups see them. The
operations take a `Disk` and give one back, and are otherwise written as they
stand in the source: that a property held throughout is then a lemma about
each call and not a second account of the operation.

## What is durable

A file keeps how many of its bytes the last `fsync` covered. Bytes behind
those may be lost in a crash, from any place on, and a file that was never
synced may be gone (`File.Crash`). Of an `.index` file nothing is promised:
`Dir.Crash` allows anything there, files that were never written included, so
that whatever is proved of a directory after a crash does not depend on what
an index file holds.
-/

namespace Pyka

open Struct (Bytes)

/-- A file: its bytes, and how many of them the last `fsync` covered –
`none` where there was none yet. -/
structure File where
  content : Bytes
  durable : Option ℕ
  deriving DecidableEq, Repr

namespace File

/-- A file just created. -/
def empty : File := ⟨[], none⟩

/-- The bytes a crash cannot take away. -/
def kept (f : File) : ℕ := f.durable.getD 0

end File

/-- The files of one kind, by base offset. -/
abbrev Files := AList (fun _ : ℤ => File)

/-- A call that changes one file. Reading is no call: it is done on the
directory as it is. -/
inductive Call
  /-- Create the file unless it exists. -/
  | touch
  /-- Write at the end. -/
  | write (bs : Bytes)
  /-- Cut the file to a length. -/
  | truncate (n : ℕ)
  /-- Make what is written durable. -/
  | fsync
  deriving DecidableEq, Repr

namespace Call

/-- What a call makes of a file that may not exist. Only `touch` creates one,
and cutting a file cuts what is durable of it. -/
def onFile : Call → Option File → Option File
  | .touch, none => some File.empty
  | .touch, some f => some f
  | _, none => none
  | .write bs, some f => some { f with content := f.content ++ bs }
  | .truncate n, some f => some ⟨f.content.take n, f.durable.map (min n)⟩
  | .fsync, some f => some { f with durable := some f.content.length }

/-- Touching leaves a file that exists, and creates an empty one otherwise. -/
@[simp] theorem touch_onFile (o : Option File) :
    Call.touch.onFile o = some (o.getD File.empty) := by
  cases o <;> rfl

/-- What is written comes at the end, and is not durable yet. -/
@[simp] theorem write_onFile (bs : Bytes) (f : File) :
    (Call.write bs).onFile (some f) = some ⟨f.content ++ bs, f.durable⟩ := rfl

/-- Cutting keeps the bytes in front, and of the durable ones those that are
left. -/
@[simp] theorem truncate_onFile (n : ℕ) (f : File) :
    (Call.truncate n).onFile (some f) = some ⟨f.content.take n, f.durable.map (min n)⟩ := rfl

/-- Syncing makes all bytes durable and changes none. -/
@[simp] theorem fsync_onFile (f : File) :
    Call.fsync.onFile (some f) = some ⟨f.content, some f.content.length⟩ := rfl

/-- No call removes a file. -/
theorem isSome_onFile (c : Call) {o : Option File} (h : o.isSome) : (c.onFile o).isSome := by
  obtain ⟨f, rfl⟩ := Option.isSome_iff_exists.mp h
  cases c <;> rfl

end Call

namespace Files

/-- What look-ups see of the files. -/
def view (fs : Files) : ℤ → Option File := fun base => fs.lookup base

/-- Make a call on the file of a base offset. -/
def call (fs : Files) (base : ℤ) (c : Call) : Files :=
  match c.onFile (fs.lookup base) with
  | some f => fs.insert base f
  | none => fs

/-- **A call changes the file it is made on and no other.** -/
@[simp] theorem view_call (fs : Files) (base : ℤ) (c : Call) :
    (fs.call base c).view = Function.update fs.view base (c.onFile (fs.view base)) := by
  funext b
  unfold view call
  by_cases hb : b = base
  · subst hb
    rw [Function.update_self]
    cases hc : c.onFile (fs.lookup b) with
    | some f => exact AList.lookup_insert fs
    | none =>
      cases hf : fs.lookup b with
      | none => rfl
      | some f =>
        have := c.isSome_onFile (o := some f) rfl
        rw [← hf, hc] at this
        cases this
  · rw [Function.update_of_ne hb]
    cases c.onFile (fs.lookup base) with
    | some f => exact AList.lookup_insert_ne hb
    | none => rfl

end Files

/-- A log's directory, its `.log` files and its `.index` files. -/
structure Dir where
  logs : Files
  indexes : Files

namespace Dir

/-- A directory with no files in it. -/
def empty : Dir := ⟨∅, ∅⟩

/-- The base offsets that `glob("*.log")` finds, in no particular order:
callers sort them. -/
def glob (d : Dir) : List ℤ := d.logs.keys

/-- An offset is found where a file of that name is. -/
theorem mem_glob (d : Dir) (base : ℤ) : base ∈ d.glob ↔ (d.logs.view base).isSome := by
  rw [glob, ← AList.mem_keys, ← AList.lookup_isSome, Files.view]

theorem nodup_glob (d : Dir) : d.glob.Nodup := d.logs.keys_nodup

end Dir

/-- **The same files**, with the same bytes in them. -/
structure SameFiles (dir dir' : Dir) : Prop where
  logs : ∀ b, (dir'.logs.view b).map File.content = (dir.logs.view b).map File.content
  indexes : ∀ b, (dir'.indexes.view b).map File.content = (dir.indexes.view b).map File.content

/-- A directory has the same files as itself. -/
theorem SameFiles.refl (dir : Dir) : SameFiles dir dir := ⟨fun _ => rfl, fun _ => rfl⟩

/-- A directory, with the states it has been through, the latest first. -/
structure Disk where
  dir : Dir
  past : List Dir

namespace Disk

/-- A directory as an operation finds it: it has been through nothing yet. -/
def of (dir : Dir) : Disk := ⟨dir, []⟩

/-- Make a call on a `.log` file, and remember how the directory was. -/
def onLog (d : Disk) (base : ℤ) (c : Call) : Disk :=
  ⟨{ d.dir with logs := d.dir.logs.call base c }, d.dir :: d.past⟩

/-- Make a call on an `.index` file, and remember how the directory was. -/
def onIndex (d : Disk) (base : ℤ) (c : Call) : Disk :=
  ⟨{ d.dir with indexes := d.dir.indexes.call base c }, d.dir :: d.past⟩

/-- What look-ups see of the `.log` files now. -/
def view (d : Disk) : ℤ → Option File := d.dir.logs.view

/-- The bytes of a `.log` file, none where there is no such file. -/
def content (d : Disk) (base : ℤ) : Bytes :=
  ((d.dir.logs.lookup base).getD File.empty).content

theorem content_eq (d : Disk) (base : ℤ) :
    d.content base = ((d.view base).getD File.empty).content := rfl

@[simp] theorem view_of (dir : Dir) : (of dir).view = dir.logs.view := rfl

@[simp] theorem view_onLog (d : Disk) (base : ℤ) (c : Call) :
    (d.onLog base c).view = Function.update d.view base (c.onFile (d.view base)) :=
  Files.view_call _ _ _

@[simp] theorem view_onIndex (d : Disk) (base : ℤ) (c : Call) :
    (d.onIndex base c).view = d.view := rfl

/-- Making a file durable changes no byte of any. -/
theorem content_fsync (d : Disk) (base b : ℤ) :
    ((d.onLog base .fsync).view b).map File.content = (d.view b).map File.content := by
  rw [view_onLog]
  by_cases hb : b = base
  · subst hb
    rw [Function.update_self]
    cases d.view b <;> rfl
  · rw [Function.update_of_ne hb]

/-- **A property of the `.log` files that held throughout.** -/
def Always (P : (ℤ → Option File) → Prop) (d : Disk) : Prop :=
  P d.view ∧ ∀ dir ∈ d.past, P dir.logs.view

variable {P : (ℤ → Option File) → Prop}

/-- What held throughout holds now. -/
theorem Always.now {d : Disk} (h : d.Always P) : P d.view := h.1

/-- Of a directory that has been through nothing, to hold throughout is to
hold. -/
@[simp] theorem always_of (dir : Dir) : (of dir).Always P ↔ P dir.logs.view := by
  simp [Always, of, view]

/-- Calls on `.index` files do not matter to a property of the `.log` files. -/
@[simp] theorem always_onIndex (d : Disk) (base : ℤ) (c : Call) :
    (d.onIndex base c).Always P ↔ d.Always P := by
  unfold Always
  simp only [onIndex, List.forall_mem_cons]
  exact ⟨fun h => ⟨h.1, h.2.2⟩, fun h => ⟨h.1, h.1, h.2⟩⟩

/-- A call on a `.log` file asks for the property once more, of what it makes
of the files. -/
@[simp] theorem always_onLog (d : Disk) (base : ℤ) (c : Call) :
    (d.onLog base c).Always P
      ↔ d.Always P ∧ P (Function.update d.view base (c.onFile (d.view base))) := by
  unfold Always
  rw [view_onLog]
  simp only [onLog, List.forall_mem_cons]
  exact ⟨fun h => ⟨h.2, h.1⟩, fun h => ⟨h.2, h.1⟩⟩

end Disk

/-! ## Crashes

What is found after the process or the machine has stopped. The operation that
was going on is gone with its state in memory; what is left is a directory,
and it need not be one the operation went through. -/

/-- **What a crash leaves of a `.log` file**: some prefix of its bytes that
is no shorter than what is durable, or nothing where it was never synced. -/
inductive File.Crash : Option File → Option File → Prop
  | absent : File.Crash none none
  | lost {f : File} (h : f.durable = none) : File.Crash (some f) none
  | cut {f : File} (k : ℕ) (h : f.kept ≤ k) :
      File.Crash (some f) (some { f with content := f.content.take k })

/-- **What a crash leaves of a directory**: of every `.log` file what
`File.Crash` allows, and of the `.index` files anything at all. -/
def Dir.Crash (d d' : Dir) : Prop :=
  ∀ base, File.Crash (d.logs.view base) (d'.logs.view base)

end Pyka
