import Edfs.Base.Execution
import Edfs.Fuse.OpenFile

/-!
# Runs of the open-file table

Any sequence of calls on any number of handles. A `SparseFile` is what a handle stands for: the
content it started with, if it has one, and the writes that have succeeded on it since. It is
computed from the calls on that handle alone (`history`).

* `FileCall`, `step`: the calls, each where its callers make it;
* `Represents`: an open file and its sparse array; `represents_call`: every call keeps it, and
  `call_other`: leaves the other handles alone;
* `open_file_buffers`, about all runs.
-/

namespace Edfs

open Overlay Execution

inductive FileCall
  | createFile (fh : FileHandle) (metadata : NodeMeta)
  | openFile (fh : FileHandle) (metadata : NodeMeta)
  | setBuffer (fh : FileHandle) (buffer : Bytes)
  | write (fh : FileHandle) (offset : ℕ) (data : Bytes)
  | read (fh : FileHandle) (offset length : ℕ)
  | releaseFile (fh : FileHandle)

/-- The handle a call is about. -/
def FileCall.handle : FileCall → FileHandle
  | .createFile fh _ | .openFile fh _ | .setBuffer fh _ | .write fh _ _ | .read fh _ _
  | .releaseFile fh => fh

/-! ### What a handle stands for -/

structure SparseFile where
  initial : Option Bytes
  writes : List (ℕ × Bytes)

/-- The initial content with the writes applied in order; a gap past the end is zeros. -/
def SparseFile.content (f : SparseFile) : Option Bytes :=
  f.initial.map fun a => overlays 0 a f.writes

/-- What a call makes of its handle. A write counts if there is content to write to and its end is
a `u64`. -/
def SparseFile.after : FileCall → Option SparseFile → Option SparseFile
  | .createFile _ _, _ => some ⟨some [], []⟩
  | .openFile _ _, _ => some ⟨none, []⟩
  | .releaseFile _, _ => none
  | .setBuffer _ buffer, some f => some { f with initial := some buffer }
  | .write _ offset data, some f =>
    some (if f.initial.isSome ∧ offset + data.length ≤ u64Max then
      { f with writes := f.writes ++ [(offset, data)] } else f)
  | _, f => f

/-- What a handle stands for after some calls: only those on the handle count. -/
def history (fh : FileHandle) (calls : List FileCall) : Option SparseFile :=
  (calls.filter (·.handle = fh)).foldl (fun f c => SparseFile.after c f) none

theorem history_concat (fh : FileHandle) (calls : List FileCall) (c : FileCall) :
    history fh (calls ++ [c]) =
      if c.handle = fh then SparseFile.after c (history fh calls) else history fh calls := by
  by_cases h : c.handle = fh <;> simp [history, h]

namespace OpenFileManager

/-- The table after a call. -/
def call (m : OpenFileManager) : FileCall → OpenFileManager
  | .createFile fh metadata => m.createFile fh metadata
  | .openFile fh metadata => m.openFile fh metadata
  | .setBuffer fh buffer => m.setBuffer fh buffer
  | .write fh offset data => (m.write fh offset data).2
  | .read _ _ _ => m
  | .releaseFile fh => (m.releaseFile fh).2

/-- Where the callers make a call: a handle is given out only while it is not in use, with the
metadata of a regular file, an empty one for `create_file`; `set_buffer` gives an open handle
without buffer as many bytes as its metadata counts. -/
def Permitted (m : OpenFileManager) : FileCall → Prop
  | .createFile fh metadata =>
    m.openFiles fh = none ∧ ∃ name chunkRefs, metadata = .regularFile name 0 chunkRefs
  | .openFile fh metadata => m.openFiles fh = none ∧
    ∃ name size chunkRefs, metadata = .regularFile name size chunkRefs ∧ size ≤ u64Max
  | .setBuffer fh buffer => ∃ file, m.openFiles fh = some file ∧ file.buffer = none ∧
    ∃ name chunkRefs, file.metadata = .regularFile name buffer.length chunkRefs
  | _ => True

def step (c : FileCall) (m : OpenFileManager) : Option OpenFileManager := some (m.call c)

/-! ### One call -/

/-- An open file that stands for a sparse array. -/
structure Represents (file : OpenFile) (f : SparseFile) : Prop where
  buffer : file.buffer = f.content
  dirty : file.dirty = true ↔ f.writes ≠ []
  unbuffered : f.initial = none → f.writes = []
  metadata : ∃ name size chunkRefs, file.metadata = .regularFile name size chunkRefs ∧
    size ≤ u64Max ∧ ∀ b, file.buffer = some b → size = b.length

variable {m : OpenFileManager} {fh : FileHandle} {file : OpenFile} {f : SparseFile}

theorem represents_cases {file : Option OpenFile} {f : Option SparseFile}
    (h : Option.Rel Represents file f) : (file = none ∧ f = none) ∨
      ∃ file' f', file = some file' ∧ f = some f' ∧ Represents file' f' := by
  cases h with
  | none => exact .inl ⟨rfl, rfl⟩
  | some h => exact .inr ⟨_, _, rfl, rfl, h⟩

theorem Represents.length_le (h : Represents file f) {a : Bytes} (ha : f.content = some a) :
    a.length ≤ u64Max := by
  obtain ⟨name, size, chunkRefs, -, hsize, hlen⟩ := h.metadata
  exact hlen a (h.buffer.trans ha) ▸ hsize

/-- **A call on another handle changes nothing.** -/
theorem call_other {c : FileCall} (h : c.handle ≠ fh) :
    (m.call c).openFiles fh = m.openFiles fh := by
  have hne := Ne.symm h
  cases c with
  | createFile fh' metadata => exact insert_of_ne hne
  | openFile fh' metadata => exact insert_of_ne hne
  | setBuffer fh' buffer =>
    simp only [call, setBuffer]
    split
    · rfl
    · exact insert_of_ne hne
  | write fh' offset data =>
    simp only [call, write]
    split
    · rfl
    · split
      · rfl
      · split
        · rfl
        · exact insert_of_ne hne
  | read fh' offset length => rfl
  | releaseFile fh' =>
    simp only [call, releaseFile]
    split
    · rfl
    · exact Function.update_of_ne hne _ _

/-- A write that counts. -/
theorem Represents.write (h : Represents file f) {a : Bytes} (ha : f.content = some a)
    {offset : ℕ} {data : Bytes} (hend : offset + data.length ≤ u64Max) :
    Represents ⟨grown (offset + data.length) file.metadata, some (overlay 0 a offset data), true⟩
      { f with writes := f.writes ++ [(offset, data)] } := by
  obtain ⟨b, hb, rfl⟩ := Option.map_eq_some_iff.1 ha
  obtain ⟨name, size, chunkRefs, hmeta, hsize, hlen⟩ := h.metadata
  obtain rfl := hlen _ (h.buffer.trans ha)
  refine ⟨?_, by simp, fun hnone => by simp [hb] at hnone, name,
    max (overlays 0 b f.writes).length (offset + data.length), chunkRefs, ?_, ?_, ?_⟩
  · rw [SparseFile.content, hb, Option.map_some, overlays_concat]
  · rw [hmeta, grown]
  · exact max_le hsize hend
  · rintro _ ⟨⟩
    rw [length_overlay]

/-- A buffer that is given to an unbuffered handle is its initial content. -/
theorem represents_setBuffer {buffer : Bytes} {f : Option SparseFile}
    (hc : m.Permitted (.setBuffer fh buffer)) (h : Option.Rel Represents (m.openFiles fh) f) :
    Option.Rel Represents ((m.setBuffer fh buffer).openFiles fh)
      (SparseFile.after (.setBuffer fh buffer) f) := by
  obtain ⟨file, hfile, hnone, name, chunkRefs, hmeta⟩ := hc
  obtain ⟨hnot, -⟩ | ⟨file', f, hfile', rfl, hf⟩ := represents_cases h
  · exact absurd (hnot.symm.trans hfile) (by simp)
  obtain rfl : file' = file := Option.some.inj (hfile'.symm.trans hfile)
  rw [setBuffer_eq hfile, openFiles_insert]
  have hinitial : f.initial = none := Option.map_eq_none_iff.1 (hf.buffer.symm.trans hnone)
  have hwrites := hf.unbuffered hinitial
  refine .some ⟨?_, hf.dirty, (fun h => nomatch h), name, _, chunkRefs, hmeta, ?_, ?_⟩
  · rw [SparseFile.content, hwrites]
    rfl
  · obtain ⟨_, _, _, hmeta', hsize, -⟩ := hf.metadata
    rw [hmeta] at hmeta'
    cases hmeta'
    exact hsize
  · rintro _ ⟨⟩
    rfl

/-- A write counts if there is a buffer and its end does not overflow; otherwise nothing
changes. -/
theorem represents_write {offset : ℕ} {data : Bytes} {f : Option SparseFile}
    (h : Option.Rel Represents (m.openFiles fh) f) :
    Option.Rel Represents ((m.write fh offset data).2.openFiles fh)
      (SparseFile.after (.write fh offset data) f) := by
  obtain ⟨hnot, rfl⟩ | ⟨file, f, hfile, rfl, hf⟩ := represents_cases h
  · simp only [OpenFileManager.write, hnot]
    exact .none
  cases ha : f.content with
  | none =>
    have hinitial : f.initial = none := Option.map_eq_none_iff.1 ha
    simp only [OpenFileManager.write, hfile, hf.buffer.trans ha, SparseFile.after, hinitial,
      Option.isSome_none, Bool.false_eq_true, false_and, if_false]
    exact .some hf
  | some a =>
    have hinitial : f.initial.isSome := by
      obtain ⟨b, hb, -⟩ := Option.map_eq_some_iff.1 ha
      exact hb ▸ rfl
    by_cases hend : offset + data.length ≤ u64Max
    · rw [write_eq hfile (hf.buffer.trans ha) hend, openFiles_insert, SparseFile.after,
        if_pos ⟨hinitial, hend⟩]
      exact .some (hf.write ha hend)
    · rw [write_too_big hfile (hf.buffer.trans ha) hend, SparseFile.after,
        if_neg fun h => hend h.2, hfile]
      exact .some hf

/-- **A call on a handle does to it what it does to its sparse array.** -/
theorem represents_call {c : FileCall} {f : Option SparseFile} (hc : m.Permitted c)
    (h : Option.Rel Represents (m.openFiles c.handle) f) :
    Option.Rel Represents ((m.call c).openFiles c.handle) (SparseFile.after c f) := by
  cases c with
  | createFile fh metadata =>
    obtain ⟨-, name, chunkRefs, rfl⟩ := hc
    show Option.Rel Represents ((m.insert fh _).openFiles fh) _
    rw [openFiles_insert]
    refine .some ⟨rfl, by simp [OpenFile.new], fun _ => rfl, name, 0, chunkRefs, rfl, by simp, ?_⟩
    rintro _ ⟨⟩
    rfl
  | openFile fh metadata =>
    obtain ⟨-, name, size, chunkRefs, rfl, hsize⟩ := hc
    show Option.Rel Represents ((m.insert fh _).openFiles fh) _
    rw [openFiles_insert]
    refine .some ⟨rfl, by simp [OpenFile.new], fun _ => rfl, name, size, chunkRefs, rfl, hsize, ?_⟩
    rintro _ ⟨⟩
  | setBuffer fh buffer => exact represents_setBuffer hc h
  | write fh offset data => exact represents_write h
  | read fh offset length =>
    cases f <;> exact h
  | releaseFile fh =>
    show Option.Rel Represents ((m.releaseFile fh).2.openFiles fh) none
    simp only [releaseFile]
    split
    · rename_i hnot
      rw [hnot]
      exact .none
    · show Option.Rel Represents (Function.update m.openFiles fh none fh) none
      rw [Function.update_self]
      exact .none

/-! ### All runs -/

/-- Every handle stands for its history. -/
theorem represents_run {calls : List FileCall} {m : OpenFileManager}
    (hmeets : Meets step (fun c m => m.Permitted c) calls new) (h : run step calls new = some m)
    (fh : FileHandle) : Option.Rel Represents (m.openFiles fh) (history fh calls) := by
  have key : Meets step (fun c m => m.Permitted c) calls new →
      ∀ fh, Option.Rel Represents (m.openFiles fh) (history fh calls) := by
    refine run_rec (P := fun calls (m : OpenFileManager) => Meets step (fun c m => m.Permitted c)
      calls new → ∀ fh, Option.Rel Represents (m.openFiles fh) (history fh calls))
      (fun _ _ => .none) ?_ h
    intro calls m c m' hm ih hstep hmeets fh
    obtain rfl : m.call c = m' := Option.some.inj hstep
    obtain ⟨hcalls, hlast⟩ := meets_concat.1 hmeets
    rw [history_concat]
    split_ifs with hfh
    · subst hfh
      exact represents_call (hlast m hm) (ih hcalls c.handle)
    · rw [call_other hfh]
      exact ih hcalls fh
  exact key hmeets fh

/-- What a handle is after some calls: an array of bytes of its own. -/
structure SparseArray (calls : List FileCall) (m : OpenFileManager) (fh : FileHandle) : Prop where
  isOpen : (m.openFiles fh).isSome ↔ (history fh calls).isSome
  buffer : (m.openFiles fh).bind OpenFile.buffer = (history fh calls).bind SparseFile.content
  size : ∀ file buffer, m.openFiles fh = some file → file.buffer = some buffer →
    ∃ name chunkRefs, file.metadata = .regularFile name buffer.length chunkRefs
  read : ∀ offset length, m.read fh offset length =
    ((history fh calls).bind SparseFile.content).map fun a => (a.take (offset + length)).drop offset
  write : ∀ f a offset data, history fh calls = some f → f.content = some a →
    offset + data.length ≤ u64Max → (m.write fh offset data).1 = .ok data.length ∧
      history fh (calls ++ [.write fh offset data])
        = some { f with writes := f.writes ++ [(offset, data)] }
  error : ∀ offset data, (∀ f a, history fh calls = some f → f.content = some a →
      ¬ offset + data.length ≤ u64Max) → (∃ e, m.write fh offset data = (.error e, m)) ∧
    history fh (calls ++ [.write fh offset data]) = history fh calls
  release : ∀ a, (m.releaseFile fh).1 = some a ↔
    ∃ f, history fh calls = some f ∧ f.writes ≠ [] ∧ f.content = some a
  others : ∀ c, c.handle ≠ fh → (m.call c).openFiles fh = m.openFiles fh

/-- **Open-file buffers are independent sparse byte arrays.** -/
theorem open_file_buffers {calls : List FileCall} {m : OpenFileManager}
    (hmeets : Meets step (fun c m => m.Permitted c) calls new) (h : run step calls new = some m)
    (fh : FileHandle) : SparseArray calls m fh := by
  have hother : ∀ c : FileCall, c.handle ≠ fh → (m.call c).openFiles fh = m.openFiles fh :=
    fun c => call_other
  have hwrite : ∀ offset data, history fh (calls ++ [.write fh offset data]) =
      SparseFile.after (.write fh offset data) (history fh calls) := fun offset data => by
    rw [history_concat]
    exact if_pos rfl
  obtain ⟨hnot, hf⟩ | ⟨file, f, hfile, hf, hrep⟩ := represents_cases (represents_run hmeets h fh)
  · have herror : ∀ offset data, m.write fh offset data = (.error .ebadf, m) := by
      intro offset data
      simp only [OpenFileManager.write, hnot]
    refine ⟨by simp [hnot, hf], by simp [hnot, hf], fun file a hfile => ?_, fun offset length => ?_,
      fun f a offset data hsome => ?_, fun offset data _ => ⟨⟨_, herror offset data⟩, ?_⟩,
      fun a => ?_, hother⟩
    · exact absurd (hnot.symm.trans hfile) (by simp)
    · simp [OpenFileManager.read, hnot, hf]
    · exact absurd (hf.symm.trans hsome) (by simp)
    · rw [hwrite, hf]
      rfl
    · simp [releaseFile, hnot, hf]
  · refine ⟨by simp [hfile, hf], by simp [hfile, hf, hrep.buffer], fun file' a hfile' ha => ?_,
      fun offset length => ?_, fun f' a offset data hsome ha hend => ?_, fun offset data hnot => ?_,
      fun a => ?_, hother⟩
    · obtain rfl := Option.some.inj (hfile.symm.trans hfile')
      obtain ⟨name, size, chunkRefs, hmeta, -, hlen⟩ := hrep.metadata
      exact ⟨name, chunkRefs, hlen a ha ▸ hmeta⟩
    · rw [hf, Option.bind_some]
      cases ha : f.content with
      | none => simp [OpenFileManager.read, hfile, hrep.buffer, ha]
      | some a => exact read_eq hfile (hrep.buffer.trans ha) (hrep.length_le ha) offset length
    · obtain rfl := Option.some.inj (hf.symm.trans hsome)
      obtain ⟨b, hb, -⟩ := Option.map_eq_some_iff.1 ha
      rw [write_eq hfile (hrep.buffer.trans ha) hend, hwrite, hf, SparseFile.after,
        if_pos ⟨by simp [hb], hend⟩]
      exact ⟨rfl, rfl⟩
    · rw [hwrite, hf, SparseFile.after]
      cases ha : f.content with
      | none =>
        have hinitial : f.initial = none := Option.map_eq_none_iff.1 ha
        refine ⟨⟨.ebadf, ?_⟩, by simp [hinitial]⟩
        simp only [OpenFileManager.write, hfile, hrep.buffer.trans ha]
      | some a =>
        have hend := hnot f a hf ha
        exact ⟨⟨.efbig, write_too_big hfile (hrep.buffer.trans ha) hend⟩,
          by rw [if_neg fun h => hend h.2]⟩
    · simp only [releaseFile, hfile, hf, hrep.buffer]
      by_cases hdirty : file.dirty = true
      · simp [hdirty, hrep.dirty.1 hdirty]
      · have hempty : f.writes = [] := not_not.1 fun h => hdirty (hrep.dirty.2 h)
        simp [hdirty, hempty]

/-- Two handles: one created and written past its end, one opened and never written. -/
theorem open_file_buffers_two :
    SparseArray [.createFile 1 (.regularFile "a" 0 []), .openFile 2 (.regularFile "b" 1 []),
        .write 1 2 [7], .setBuffer 2 [5]]
      ((((new.createFile 1 (.regularFile "a" 0 [])).openFile 2 (.regularFile "b" 1 [])).call
        (.write 1 2 [7])).call (.setBuffer 2 [5])) 1 := by
  have hmeets : Meets step (fun c m => m.Permitted c) [.createFile 1 (.regularFile "a" 0 []),
      .openFile 2 (.regularFile "b" 1 []), .write 1 2 [7], .setBuffer 2 [5]] new := ?_
  · exact open_file_buffers hmeets rfl 1
  refine ⟨⟨rfl, "a", [], rfl⟩, ?_⟩
  rintro _ ⟨⟩
  refine ⟨⟨rfl, "b", 1, [], rfl, by decide⟩, ?_⟩
  rintro _ ⟨⟩
  refine ⟨trivial, ?_⟩
  rintro _ ⟨⟩
  exact ⟨⟨_, rfl, rfl, "b", [], rfl⟩, fun _ _ => trivial⟩

end OpenFileManager

end Edfs
