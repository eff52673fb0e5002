import Edfs.Domain

/-!
# Splitting files into chunks

`filesystem/chunk.rs`: `split` cuts a file's bytes at the FastCDC boundaries, `truncate` cuts a
list of chunk references down to a size, shortening the reference the cut falls in.
-/

namespace Edfs.Chunk

/-- The loop of `truncate`, with what is left of the size. -/
def truncate : List ChunkRef → ℕ → List ChunkRef
  | [], _ => []
  | r :: rs, remaining =>
    if remaining = 0 then []
    else if r.size ≤ remaining then r :: truncate rs (remaining - r.size)
    else [⟨r.hash, remaining⟩]

/-- The bytes the references of a list count. -/
def totalSize (refs : List ChunkRef) : ℕ := (refs.map ChunkRef.size).sum

@[simp] theorem totalSize_nil : totalSize [] = 0 := rfl

@[simp] theorem totalSize_cons (r : ChunkRef) (rs : List ChunkRef) :
    totalSize (r :: rs) = r.size + totalSize rs := by simp [totalSize]

/-- The pieces of a tiling, put together, are the part of the input they tile. -/
theorem flatMap_tiles {data : Bytes} {start : ℕ} {ps : List (ℕ × ℕ)}
    (h : Tiles start ps data.length) :
    ps.flatMap (fun p => (data.drop p.1).take p.2) = data.drop start := by
  induction ps generalizing start with
  | nil => simp [show start = data.length from h]
  | cons p ps ih =>
    obtain ⟨offset, length⟩ := p
    obtain ⟨rfl, -, hrest⟩ := h
    rw [List.flatMap_cons, ih hrest, ← List.drop_drop, List.take_append_drop]

variable [Sha256] [FastCdc]

/-- Cut a file into chunks. -/
def split (data : Bytes) : List Chunk :=
  (FastCdc.cut data fastcdcMinChunkSize fastcdcAvgChunkSize fastcdcMaxChunkSize).map
    fun piece => Chunk.new ((data.drop piece.1).take piece.2)

variable [LawfulFastCdc]

/-- The chunks of a file, put together, are the file. -/
theorem flatMap_split (data : Bytes) : (split data).flatMap Chunk.data = data := by
  have h := flatMap_tiles (LawfulFastCdc.tiles data fastcdcMinChunkSize fastcdcAvgChunkSize
    fastcdcMaxChunkSize)
  simpa [split, List.flatMap_map] using h

/-- The references of a file's chunks count its bytes. -/
theorem totalSize_split (data : Bytes) :
    totalSize ((split data).map Chunk.reference) = data.length := by
  conv_rhs => rw [← flatMap_split data, List.length_flatMap]
  simp [totalSize, Chunk.reference, Function.comp_def]

end Edfs.Chunk
