import Edfs.Base.Overlay
import Edfs.Filesystem.FileSystem

/-!
# Open files

`fuse/open_file.rs` and the error numbers of `fuse/error.rs`. A handle has a copy of the metadata
its file had when it was opened, and a buffer with the whole content: empty for a created file, and
loaded before the first write to an opened one. `usize` has 64 bits, and memory does not run out.

* `OpenFileManager` and its operations;
* `write_eq`: a write overlays the buffer.
-/

namespace Edfs

open Overlay

inductive Errno
  | enoent
  | enotdir
  | eisdir
  | enotempty
  | eexist
  | enospc
  | eperm
  | eio
  | ebadf
  | efbig
  | einval
  | enotsup
  deriving DecidableEq

/-- `From<FileSystemError>`. -/
def Errno.ofFileSystem : FileSystemError → Errno
  | .notFound => .enoent
  | .notADirectory => .enotdir
  | .isADirectory => .eisdir
  | .directoryNotEmpty => .enotempty
  | .alreadyExists => .eexist
  | .storageFull => .enospc
  | .reservedNode => .eperm

abbrev FileHandle := ℕ

structure OpenFile where
  metadata : NodeMeta
  buffer : Option Bytes
  dirty : Bool
  deriving DecidableEq

def OpenFile.new (metadata : NodeMeta) (buffer : Option Bytes) : OpenFile :=
  ⟨metadata, buffer, false⟩

structure OpenFileManager where
  openFiles : FileHandle → Option OpenFile

namespace OpenFileManager

def new : OpenFileManager := ⟨fun _ => none⟩

def insert (m : OpenFileManager) (fh : FileHandle) (file : OpenFile) : OpenFileManager :=
  ⟨Function.update m.openFiles fh (some file)⟩

def createFile (m : OpenFileManager) (fh : FileHandle) (metadata : NodeMeta) : OpenFileManager :=
  m.insert fh (.new metadata (some []))

def openFile (m : OpenFileManager) (fh : FileHandle) (metadata : NodeMeta) : OpenFileManager :=
  m.insert fh (.new metadata none)

/-- Close a handle; the result is the content to write back, if there is any. -/
def releaseFile (m : OpenFileManager) (fh : FileHandle) : Option Bytes × OpenFileManager :=
  match m.openFiles fh with
  | none => (none, m)
  | some session =>
    (if session.dirty then session.buffer else none, ⟨Function.update m.openFiles fh none⟩)

def metadata (m : OpenFileManager) (fh : FileHandle) : Option NodeMeta :=
  (m.openFiles fh).map OpenFile.metadata

def read (m : OpenFileManager) (fh : FileHandle) (offset length : ℕ) : Option Bytes :=
  match m.openFiles fh with
  | none => none
  | some file =>
    match file.buffer with
    | none => none
    | some buffer =>
      if buffer.length ≤ offset then some []
      else some ((buffer.take (min (saturatingAdd offset length) buffer.length)).drop offset)

/-- The metadata of a file that has been written up to `writeEnd`. -/
def grown (writeEnd : ℕ) : NodeMeta → NodeMeta
  | .regularFile name size chunkRefs => .regularFile name (max size writeEnd) chunkRefs
  | m => m

def write (m : OpenFileManager) (fh : FileHandle) (offset : ℕ) (data : Bytes) :
    Except Errno ℕ × OpenFileManager :=
  match m.openFiles fh with
  | none => (.error .ebadf, m)
  | some file =>
    match file.buffer with
    | none => (.error .ebadf, m)
    | some buffer =>
      match checkedAdd offset data.length with
      | none => (.error .efbig, m)
      | some writeEnd =>
        let buffer := if buffer.length < writeEnd then resize 0 buffer writeEnd else buffer
        let buffer := buffer.take offset ++ data ++ buffer.drop writeEnd
        (.ok data.length, m.insert fh ⟨grown writeEnd file.metadata, some buffer, true⟩)

def needsBuffer (m : OpenFileManager) (fh : FileHandle) : Except Errno Bool :=
  match m.openFiles fh with
  | none => .error .ebadf
  | some file => .ok file.buffer.isNone

def setBuffer (m : OpenFileManager) (fh : FileHandle) (buffer : Bytes) : OpenFileManager :=
  match m.openFiles fh with
  | none => m
  | some session => m.insert fh { session with buffer := some buffer }

/-! ### What the operations do to a handle -/

variable {m : OpenFileManager} {fh : FileHandle} {file : OpenFile} {buffer data : Bytes}
  {offset : ℕ}

@[simp] theorem openFiles_insert : (m.insert fh file).openFiles fh = some file := by
  simp [insert]

theorem insert_of_ne {fh' : FileHandle} (h : fh' ≠ fh) :
    (m.insert fh file).openFiles fh' = m.openFiles fh' := by
  simp [insert, h]

theorem metadata_eq (h : m.openFiles fh = some file) : m.metadata fh = some file.metadata := by
  simp [metadata, h]

theorem needsBuffer_eq (h : m.openFiles fh = some file) :
    m.needsBuffer fh = .ok file.buffer.isNone := by
  simp [needsBuffer, h]

theorem setBuffer_eq (h : m.openFiles fh = some file) (buffer : Bytes) :
    m.setBuffer fh buffer = m.insert fh { file with buffer := some buffer } := by
  simp [setBuffer, h]

/-- A read of a buffered handle is a slice of the buffer. -/
theorem read_eq (h : m.openFiles fh = some file) (hb : file.buffer = some buffer)
    (hlen : buffer.length ≤ u64Max) (offset length : ℕ) :
    m.read fh offset length = some ((buffer.take (offset + length)).drop offset) := by
  simp only [read, h, hb]
  split_ifs with hempty
  · rw [List.drop_eq_nil_of_le ((List.length_take_le' _ _).trans hempty)]
  · have hmin : min (saturatingAdd offset length) buffer.length
        = min (offset + length) buffer.length := by
      unfold saturatingAdd
      omega
    rw [hmin, ← List.take_eq_take_min]

/-- **A write overlays the buffer**, unless its end is no `u64`. -/
theorem write_eq (h : m.openFiles fh = some file) (hb : file.buffer = some buffer)
    (hend : offset + data.length ≤ u64Max) :
    m.write fh offset data = (.ok data.length, m.insert fh
      ⟨grown (offset + data.length) file.metadata, some (overlay 0 buffer offset data), true⟩) := by
  have hadd := checkedAdd_eq_some.2 ⟨hend, rfl⟩
  simp only [write, h, hb, hadd, overlay_eq]

theorem write_too_big (h : m.openFiles fh = some file) (hb : file.buffer = some buffer)
    (hend : ¬ offset + data.length ≤ u64Max) : m.write fh offset data = (.error .efbig, m) := by
  have hadd : checkedAdd offset data.length = none := if_neg hend
  simp only [write, h, hb, hadd]

end OpenFileManager

end Edfs
