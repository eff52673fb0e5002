import Edfs.Filesystem.Arithmetic
import Edfs.Fuse.Gateway
import Edfs.Network.ClusterFetches
import Edfs.Network.Convergence

/-!
# Reads in the cluster

Chunks are named by what they hold, so it does not matter where a node has them from: nodes with
the same tree read the same bytes, and what has been written on one node is what is read on
another, as soon as this is the newest operation of the file there and no chunk is lacking.

* `needed_stored`: a request that lacks nothing has all it needs stored;
* `readFile_fst_congr`: equal metadata, equal replies; `program_reads_agree`;
* `contentOf`: the chunks of what has been written, by their hashes; `read_of_written`,
  `program_reads_written`.
-/

namespace Edfs

open Chunk Execution

namespace ChunkStorage

variable [Sha256] [LawfulSha256]

/-- What two stores have under one hash is the same. -/
theorem found_eq {s s' : ChunkStorage} (h : s.Inv) (h' : s'.Inv) {r : ChunkRef}
    (hr : s.contains r.hash) (hr' : s'.contains r.hash) : s.found r = s'.found r := by
  obtain ⟨e, he⟩ := contains_iff.1 hr
  obtain ⟨e', he'⟩ := contains_iff.1 hr'
  rw [found_of_entry he, found_of_entry he']
  exact ChunkHash.of_injective ((h.keyed _ _ he).symm.trans (h'.keyed _ _ he'))

end ChunkStorage

namespace FileSystem

variable {PeerId : Type} [CrdtTree PeerId] {fs fs' : FileSystem PeerId} {n : NodeId} {name : String}
  {size offset length : ℕ} {refs : List ChunkRef}

/-- A request that lacks nothing has all it needs stored. -/
theorem needed_stored (hm : fs.metadata n = .ok (.regularFile name size refs))
    (h : fs.missingChunkHashesFor n offset length = some (.ok [])) :
    ∀ r ∈ needed offset length size refs, fs.storage.contains r.hash := by
  intro r hr
  simp only [missingChunkHashesFor, hm] at h
  obtain ⟨missing, hloop, hmissing⟩ := Option.map_eq_some_iff.1 h
  cases hmissing
  have hnone := (missingLoop_eq_some hloop).symm
  rw [List.map_eq_nil_iff, List.filter_eq_nil_iff] at hnone
  simp only [needed] at hr
  split_ifs at hr
  · simpa using hnone r hr
  · exact absurd hr List.not_mem_nil

/-- A request that lacks nothing is for a file. -/
theorem exists_file (h : fs.missingChunkHashesFor n offset length = some (.ok [])) :
    ∃ name size refs, fs.metadata n = .ok (.regularFile name size refs) := by
  simp only [missingChunkHashesFor] at h
  cases hm : fs.metadata n with
  | error e => simp [hm] at h
  | ok m =>
    cases m with
    | regularFile name size refs => exact ⟨name, size, refs, rfl⟩
    | _ => simp [hm] at h

variable [Sha256] [LawfulSha256]

/-- **Files with the same metadata read the same** where nothing is lacking. -/
theorem readFile_fst_congr (hs : fs.storage.Inv) (hs' : fs'.storage.Inv)
    (hm : fs.metadata n = .ok (.regularFile name size refs)) (hm' : fs'.metadata n = fs.metadata n)
    (h : fs.missingChunkHashesFor n offset length = some (.ok []))
    (h' : fs'.missingChunkHashesFor n offset length = some (.ok [])) :
    (fs.readFile n offset length).map Prod.fst = (fs'.readFile n offset length).map Prod.fst := by
  have hm' := hm'.trans hm
  have hsome : (fs.readFile n offset length).isSome ↔ (fs'.readFile n offset length).isSome :=
    (readFile_isSome_iff hm).trans (readFile_isSome_iff hm').symm
  cases hread : fs.readFile n offset length with
  | none =>
    rw [hread] at hsome
    rw [Option.not_isSome_iff_eq_none.1 fun hr => absurd (hsome.2 hr) (by simp)]
  | some reply =>
    rw [hread] at hsome
    obtain ⟨reply', hread'⟩ := Option.isSome_iff_exists.1 (hsome.1 rfl)
    rw [hread']
    obtain ⟨r, fs₁⟩ := reply
    obtain ⟨r', fs₁'⟩ := reply'
    obtain ⟨rfl, -⟩ := readFile_eq_some hm hread
    obtain ⟨rfl, -⟩ := readFile_eq_some hm' hread'
    have hneeded := needed_stored hm h
    have hneeded' := needed_stored hm' h'
    simp only [needed] at hneeded hneeded'
    simp only [Option.map_some, Option.some.injEq, Except.ok.injEq]
    by_cases hempty : offset < min (saturatingAdd offset length) size
    · rw [if_pos hempty] at hneeded hneeded'
      exact window_congr fun r hr =>
        ChunkStorage.found_eq hs hs' (hneeded r hr) (hneeded' r hr)
    · rw [window_empty _ (not_lt.1 hempty), window_empty _ (not_lt.1 hempty)]

variable [FastCdc]

omit [LawfulSha256] in
/-- The bytes of a file's chunks, by their hashes. -/
def contentOf (data : Bytes) (r : ChunkRef) : Bytes :=
  ((split data).find? fun c => c.hash = r.hash).elim [] Chunk.data

/-- A chunk is found under its hash. -/
theorem contentOf_reference {data : Bytes} {c : Chunk} (hc : c ∈ split data) :
    contentOf data c.reference = c.data := by
  obtain ⟨c', hc'⟩ : ∃ c', (split data).find? (fun x => x.hash = c.reference.hash) = some c' := by
    refine Option.isSome_iff_exists.1 (List.find?_isSome.2 ⟨c, hc, ?_⟩)
    exact decide_eq_true rfl
  have hhash : c'.hash = c.reference.hash := by simpa using List.find?_some hc'
  rw [contentOf, hc']
  exact ChunkHash.of_injective (c'.hash_eq.symm.trans (hhash.trans c.hash_eq))

variable [LawfulFastCdc]

/-- The chunks of what has been written have its bytes. -/
theorem realContent_split {data : Bytes} (hdata : data.length ≤ u64Max) :
    RealContent ((split data).map Chunk.reference) (contentOf data) ∧
      fileBytes ((split data).map Chunk.reference) (contentOf data) = data := by
  refine ⟨⟨fun r hr => ?_, fun r hr => ?_, (totalSize_split data).trans_le hdata⟩, ?_⟩
  · obtain ⟨c, hc, rfl⟩ := List.mem_map.1 hr
    rw [contentOf_reference hc]
    exact c.hash_eq.symm
  · obtain ⟨c, hc, rfl⟩ := List.mem_map.1 hr
    rw [contentOf_reference hc]
    exact le_rfl
  · conv_rhs => rw [← flatMap_split data]
    rw [fileBytes, List.flatMap_map]
    refine List.flatMap_congr fun c hc => ?_
    rw [contentOf_reference hc]
    exact List.take_length

/-- **What has been written is read** where the metadata are those of the write and nothing is
lacking. -/
theorem read_of_written (hs : fs.storage.Inv) {data : Bytes} (hdata : data.length ≤ u64Max)
    (hm : fs.metadata n = .ok (.regularFile name data.length ((split data).map Chunk.reference)))
    (h : fs.missingChunkHashesFor n offset length = some (.ok [])) :
    ∃ fs', fs.readFile n offset length = some
      (.ok ((data.take (min (saturatingAdd offset length) data.length)).drop offset), fs') := by
  obtain ⟨hreal, hbytes⟩ := realContent_split hdata
  have hread := read_of_stored hs hm (needed_stored hm h) hreal
  rwa [hbytes] at hread

omit [LawfulSha256] [LawfulFastCdc] in
/-- A write reports the size and the chunks of what it writes, for a node outside the trash. -/
theorem emitted_write [UuidV5] {now : ℕ → ℕ} {data : Bytes} {op : NodeOperation PeerId}
    (h : op ∈ emitted (now, .mutate (.writeFile n data)) fs) :
    op.child = n ∧ n ≠ NodeId.root ∧ op.parent ≠ NodeId.trash ∧ ∃ name,
      op.metadata = .regularFile name data.length ((split data).map Chunk.reference) := by
  rcases writeFile_cases fs (now 0) n data with
    ⟨e, he⟩ | ⟨name, size, refs, parent, hm, hparent, -, hw⟩
  · have hmutate : fs.mutate (now 0) (.writeFile n data) = (.error e, fs) := operations_error he
    simp [emitted, hmutate] at h
  · have hmutate : fs.mutate (now 0) (.writeFile n data) = _ := operations_ok (hw _ rfl)
    simp only [emitted, hmutate, List.mem_singleton] at h
    have hroot : n ≠ NodeId.root := by
      rintro rfl
      rw [metadata_root] at hm
      cases hm
    obtain ⟨x, hx, hxp⟩ := Option.map_eq_some_iff.1 hparent
    rw [h, NodeTree.issue_fst]
    refine ⟨rfl, hroot, ?_, name, rfl⟩
    rw [← hxp]
    exact ne_trash_of_metadata hm hroot hx

end FileSystem

namespace Network.Cluster

variable {PeerId : Type} [CrdtTree PeerId] [LinearOrder PeerId] [PeerBytes PeerId] [UuidV5]
  [Sha256] [FastCdc] [Bincode PeerId] [LawfulCrdtTree PeerId] [LawfulSha256]
  {maxPinnedBytes start : PeerId → ℕ} {events before after : List (ClusterEvent PeerId)}
  {p q : PeerId} {u v w : Cluster PeerId} {n : NodeId} {offset length : ℕ}

/-- **Reads agree.** After any run, two nodes with the same tree reply the same to a read for which
neither of them lacks a chunk, wherever they have the chunks from. -/
theorem program_reads_agree (hrun : run clusterStep events (init maxPinnedBytes start) = some w)
    (htree : (w.nodes p).filesystem.tree.state = (w.nodes q).filesystem.tree.state)
    (hp : (w.nodes p).filesystem.missingChunkHashesFor n offset length = some (.ok []))
    (hq : (w.nodes q).filesystem.missingChunkHashesFor n offset length = some (.ok [])) :
    ((w.nodes p).filesystem.readFile n offset length).map Prod.fst =
      ((w.nodes q).filesystem.readFile n offset length).map Prod.fst := by
  obtain ⟨name, size, refs, hm⟩ := FileSystem.exists_file hp
  have hfind : (w.nodes q).filesystem.tree.find n = (w.nodes p).filesystem.tree.find n := by
    rw [NodeTree.find_eq, NodeTree.find_eq, htree]
  exact FileSystem.readFile_fst_congr (inv_run hrun p).storage (inv_run hrun q).storage hm
    (FileSystem.metadata_congr hfind) hp hq

variable [LawfulFastCdc]

/-- **What one node has written, another reads.** If a write on some node reports an operation, then
at any later time a node whose log has this operation, as the newest one of the file, replies to a
request for which it lacks no chunk with the bytes that have been written. Nothing may have been
put under the file: a node above others cannot go everywhere. -/
theorem program_reads_written
    (hbefore : run clusterStep before (init maxPinnedBytes start) = some u)
    {now : ℕ → ℕ} {data : Bytes} (hdata : data.length ≤ u64Max)
    (hwrite : clusterStep (.call p (now, .mutate (.writeFile n data))) u = some v)
    {op : NodeOperation PeerId}
    (hop : op ∈ FileSystem.emitted (now, .mutate (.writeFile n data)) (u.nodes p).filesystem)
    (hafter : run clusterStep after v = some w) (hlogged : op ∈ w.log q)
    (hnewest : ∀ x ∈ w.log q, x.child = n → x.timestamp ≤ op.timestamp)
    (hleaf : ∀ x ∈ w.log q, x.parent ≠ n)
    (hheld : (w.nodes q).filesystem.missingChunkHashesFor n offset length = some (.ok [])) :
    ∃ fs, (w.nodes q).filesystem.readFile n offset length =
      some (.ok ((data.take (min (saturatingAdd offset length) data.length)).drop offset), fs) := by
  have hv := run_concat_eq_some.2 ⟨u, hbefore, hwrite⟩
  have hinv := inv_run (run_append_eq_some.2 ⟨v, hv, hafter⟩) q
  obtain ⟨rfl, hroot, htrash, name, hmetadata⟩ := FileSystem.emitted_write hop
  have hfind : (w.nodes q).filesystem.tree.find op.child = some ⟨op.parent, op.metadata⟩ :=
    hinv.sound.newest_wins hlogged hnewest hleaf
  have hshown := FileSystem.metadata_of_find hfind hroot htrash
  exact FileSystem.read_of_written hinv.storage hdata (hmetadata ▸ hshown) hheld

end Network.Cluster

end Edfs

namespace Edfs.Network.Cluster

open Execution Reference

/-- The file of `writes`. -/
def file : NodeId := ⟨UuidV5.newV5 NodeId.root.uuid "a"⟩

/-- Node 0's file system with the file, before it is written. -/
def withFile : FileSystem ℕ := ((FileSystem.init 0 100).mutate 1 (.createFile NodeId.root "a")).2

/-- What the write reports. -/
def written : List (NodeOperation ℕ) :=
  FileSystem.emitted (fun _ => 2, .mutate (.writeFile file [9])) withFile

/-- Node 1 pulls what node 0 has reported, and fetches the chunk for a reader, which caches it. -/
def pullsFile : List (ClusterEvent ℕ) :=
  [.tick 1 (context 1 [0] []) (.swarm (.connectionEstablished 0 1)),
    .tick 0 (context 0 [1] [wanted]) (.request ⟨0, 1, 0, .pullMissingOperations []⟩),
    .tick 1 (context 1 [0] [wanted]) (.response ⟨0, 1, 0, .missingOperations
      ((withFile.writeFile 2 file [9]).2.operationsMissingFrom [])⟩),
    .fetch 1 wanted 7,
    .tick 1 (context 1 [0] [wanted]) .command,
    .tick 0 (context 0 [1] [wanted]) (.request ⟨1, 1, 0, .pullChunk wanted⟩),
    .tick 1 (context 1 [0] [wanted]) (.response ⟨1, 1, 0, .chunkData [9]⟩),
    .call 1 (fun _ => 3, .cacheChunk [9])]

theorem program_reads_written_pullsFile : ∃ w : Cluster ℕ,
    run clusterStep (writes 0 ++ pullsFile) (init (fun _ => 100) fun _ => 0) = some w ∧
    ∃ fs, (w.nodes 1).filesystem.readFile file 0 5 =
      some (.ok (([9].take (min (saturatingAdd 0 5) 1)).drop 0), fs) := by
  have hshown : (run clusterStep (writes 0 ++ pullsFile) (init (fun _ => 100) fun _ => 0)).map
      (fun w => (w.log 1, (w.nodes 1).filesystem.missingChunkHashesFor file 0 5)) =
      some (written ++ FileSystem.emitted (fun _ => 1, .mutate (.createFile NodeId.root "a"))
        (FileSystem.init 0 100), some (.ok [])) := by rfl
  obtain ⟨w, hrun, hw⟩ := Option.map_eq_some_iff.1 hshown
  obtain ⟨hlog, hheld⟩ := Prod.mk.inj hw
  obtain ⟨v, hv, hafter⟩ := run_append_eq_some.1 hrun
  obtain ⟨u, hbefore, hwrite⟩ := run_concat_eq_some.1 (show run clusterStep
    ([.call 0 (fun _ => 1, .mutate (.createFile NodeId.root "a"))] ++
      [.call 0 (fun _ => 2, .mutate (.writeFile file [9]))]) _ = some v from hv)
  have hfile : (run clusterStep [.call 0 (fun _ => 1, .mutate (.createFile NodeId.root "a"))]
      (init (fun _ => 100) fun _ => 0)).map (fun u => (u.nodes 0).filesystem) = some withFile := rfl
  rw [hbefore, Option.map_some, Option.some.injEq] at hfile
  obtain ⟨op, hop, hnewest, hleaf⟩ : ∃ op, written = [op] ∧
      (∀ x ∈ written ++ FileSystem.emitted (fun _ => 1, .mutate (.createFile NodeId.root "a"))
        (FileSystem.init 0 100), x.child = file → x.timestamp ≤ op.timestamp) ∧
      ∀ x ∈ written ++ FileSystem.emitted (fun _ => 1, .mutate (.createFile NodeId.root "a"))
        (FileSystem.init 0 100), x.parent ≠ file := ⟨_, rfl, by decide, by decide⟩
  have hmem : op ∈ FileSystem.emitted (fun _ => 2, .mutate (.writeFile file [9]))
      (u.nodes 0).filesystem := by
    rw [hfile]
    change op ∈ written
    rw [hop]
    exact List.mem_singleton_self op
  refine ⟨w, hrun, program_reads_written hbefore (show ([9] : Bytes).length ≤ u64Max by decide)
    hwrite hmem hafter ?_ (hlog ▸ hnewest) (hlog ▸ hleaf) hheld⟩
  rw [hlog, hop]
  exact List.mem_append_left _ (List.mem_singleton_self op)

theorem program_reads_agree_pullsFile : ∃ w : Cluster ℕ,
    run clusterStep (writes 0 ++ pullsFile) (init (fun _ => 100) fun _ => 0) = some w ∧
    ((w.nodes 0).filesystem.readFile file 0 5).map Prod.fst =
      ((w.nodes 1).filesystem.readFile file 0 5).map Prod.fst := by
  have hshown : (run clusterStep (writes 0 ++ pullsFile) (init (fun _ => 100) fun _ => 0)).map
      (fun w => ((w.nodes 0).filesystem.missingChunkHashesFor file 0 5,
        (w.nodes 1).filesystem.missingChunkHashesFor file 0 5)) =
      some (some (.ok []), some (.ok [])) := by rfl
  have hstate : (run clusterStep (writes 0 ++ pullsFile) (init (fun _ => 100) fun _ => 0)).map
      (fun w => (w.nodes 0).filesystem.tree.state) =
      (run clusterStep (writes 0 ++ pullsFile) (init (fun _ => 100) fun _ => 0)).map
      (fun w => (w.nodes 1).filesystem.tree.state) := by rfl
  obtain ⟨w, hrun, hw⟩ := Option.map_eq_some_iff.1 hshown
  obtain ⟨hp, hq⟩ := Prod.mk.inj hw
  rw [hrun, Option.map_some, Option.map_some, Option.some.injEq] at hstate
  exact ⟨w, hrun, program_reads_agree hrun hstate hp hq⟩

end Edfs.Network.Cluster
