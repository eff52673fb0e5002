import Edfs.Filesystem.Calls

/-!
# Writing and reading back

* `Holds`: references whose chunks are stored and whose contents, put together, are given bytes;
  kept by `truncate` and by everything that keeps the entries;
* `Readable`: a file whose metadata and stored chunks are those of given bytes;
* `HasContent`: the same with pinned chunks; established by `write_file`, cut by `truncate_file`,
  and kept by every call that leaves the file alone;
* `read_after_write`: reads return the slices of what was written, cut to the smallest size set.
-/

namespace Edfs.FileSystem

open Chunk Slice Execution

/-! ### References that hold given bytes -/

/-- The chunks of the references are stored, and their contents put together are `t`. -/
structure Holds (s : ChunkStorage) (refs : List ChunkRef) (t : Bytes) : Prop where
  stored : ∀ r ∈ refs, ∃ e, s.entry r.hash = some e ∧ r.size ≤ e.data.length
  content : refs.flatMap (fun r => (s.found r).take r.size) = t

theorem holds_nil (s : ChunkStorage) : Holds s [] [] := ⟨by simp, rfl⟩

theorem Holds.size_le {s : ChunkStorage} {refs : List ChunkRef} {t : Bytes} (h : Holds s refs t)
    {r : ChunkRef} (hr : r ∈ refs) : r.size ≤ (s.found r).length := by
  obtain ⟨e, he, hle⟩ := h.stored r hr
  rwa [ChunkStorage.found_of_entry he]

/-- A list that holds some bytes, by its first reference. -/
theorem holds_cons {s : ChunkStorage} {r : ChunkRef} {rs : List ChunkRef} {t : Bytes}
    (h : Holds s (r :: rs) t) :
    ∃ p q, t = p ++ q ∧ p = (s.found r).take r.size ∧ p.length = r.size ∧ Holds s rs q := by
  refine ⟨_, _, h.content.symm.trans List.flatMap_cons, rfl, ?_, ?_, rfl⟩
  · rw [List.length_take, Nat.min_eq_left (h.size_le List.mem_cons_self)]
  · exact fun x hx => h.stored x (List.mem_cons_of_mem r hx)

theorem Holds.totalSize {s : ChunkStorage} {refs : List ChunkRef} {t : Bytes}
    (h : Holds s refs t) : Chunk.totalSize refs = t.length := by
  induction refs generalizing t with
  | nil =>
    cases h.content
    rfl
  | cons r rs ih =>
    obtain ⟨p, q, rfl, -, hlen, hrs⟩ := holds_cons h
    rw [totalSize_cons, ih hrs, List.length_append, hlen]

theorem Holds.cons {s : ChunkStorage} {r : ChunkRef} {rs : List ChunkRef} {q : Bytes}
    {e : ChunkEntry} (hr : s.entry r.hash = some e) (hsize : r.size ≤ e.data.length)
    (h : Holds s rs q) : Holds s (r :: rs) (e.data.take r.size ++ q) := by
  refine ⟨fun x hx => ?_, ?_⟩
  · rcases List.mem_cons.1 hx with rfl | hx
    · exact ⟨e, hr, hsize⟩
    · exact h.stored x hx
  · rw [List.flatMap_cons, h.content, ChunkStorage.found_of_entry hr]

/-- Cutting the references cuts the bytes. -/
theorem holds_truncate {s : ChunkStorage} {refs : List ChunkRef} {t : Bytes} (h : Holds s refs t)
    (k : ℕ) : Holds s (Chunk.truncate refs k) (t.take k) := by
  induction refs generalizing t k with
  | nil =>
    cases h.content
    simpa [Chunk.truncate] using holds_nil s
  | cons r rs ih =>
    obtain ⟨e, he, hle⟩ := h.stored r List.mem_cons_self
    obtain ⟨p, q, rfl, hp, hlen, hrs⟩ := holds_cons h
    rw [ChunkStorage.found_of_entry he] at hp
    unfold Chunk.truncate
    split_ifs with hzero hfits
    · rw [hzero, List.take_zero]
      exact holds_nil s
    · -- the whole reference stays
      rw [List.take_append, hlen, List.take_of_length_le (hlen.le.trans hfits), hp]
      exact .cons he hle (ih hrs _)
    · -- the cut falls in this reference
      have hk : k ≤ e.data.length := by omega
      have hpk : (p ++ q).take k = e.data.take k ++ [] := by
        rw [List.take_append_of_le_length (by omega), hp, List.take_take, List.append_nil]
        congr 1
        omega
      rw [hpk]
      exact .cons (r := ⟨r.hash, k⟩) he hk (holds_nil s)

/-- The references that a cut leaves name chunks of the old ones. -/
theorem mem_truncate_hash {refs : List ChunkRef} {k : ℕ} {r : ChunkRef}
    (hr : r ∈ Chunk.truncate refs k) : ∃ r' ∈ refs, r'.hash = r.hash := by
  induction refs generalizing k with
  | nil => simp [Chunk.truncate] at hr
  | cons x rs ih =>
    unfold Chunk.truncate at hr
    split_ifs at hr with hzero hfits
    · exact absurd hr List.not_mem_nil
    · rcases List.mem_cons.1 hr with rfl | hr
      · exact ⟨r, List.mem_cons_self, rfl⟩
      · obtain ⟨r', hr', heq⟩ := ih hr
        exact ⟨r', List.mem_cons_of_mem x hr', heq⟩
    · obtain rfl := List.mem_singleton.1 hr
      exact ⟨x, List.mem_cons_self, rfl⟩

/-- A store that keeps the entries of the references keeps the bytes. -/
theorem Holds.frame {s s' : ChunkStorage} {refs : List ChunkRef} {t : Bytes} (h : Holds s refs t)
    (hkeep : ∀ r ∈ refs, s'.entry r.hash = s.entry r.hash) : Holds s' refs t := by
  refine ⟨fun r hr => ?_, ?_⟩
  · rw [hkeep r hr]
    exact h.stored r hr
  · rw [← h.content]
    refine List.flatMap_congr fun r hr => ?_
    rw [ChunkStorage.found, ChunkStorage.found, hkeep r hr]

/-- Pinned chunks hold their bytes, put together. -/
theorem holds_chunks [Sha256] {s : ChunkStorage} {cs : List Chunk}
    (h : ∀ c ∈ cs, s.entry c.hash = some ⟨c.data, true⟩) :
    Holds s (cs.map Chunk.reference) (cs.flatMap Chunk.data) := by
  induction cs with
  | nil => exact holds_nil s
  | cons c cs ih =>
    have hc := Holds.cons (r := c.reference) (h c List.mem_cons_self) le_rfl
      (ih fun x hx => h x (List.mem_cons_of_mem c hx))
    rwa [show c.reference.size = c.data.length from rfl, List.take_length] at hc

/-! ### Files with given content -/

variable {PeerId : Type} [CrdtTree PeerId]

/-- The file's metadata are those of `t`, and its references hold at least that; what they hold is
counted by a `u64`. -/
def Readable (fs : FileSystem PeerId) (n : NodeId) (t : Bytes) : Prop :=
  ∃ name refs u, fs.metadata n = .ok (.regularFile name t.length refs) ∧
    Holds fs.storage refs (t ++ u) ∧ (t ++ u).length ≤ u64Max

/-- The file's metadata and pinned chunks are those of `t`. -/
def HasContent (fs : FileSystem PeerId) (n : NodeId) (t : Bytes) : Prop :=
  ∃ name refs, fs.metadata n = .ok (.regularFile name t.length refs) ∧ Holds fs.storage refs t ∧
    ∀ r ∈ refs, fs.storage.isPinned r.hash

theorem HasContent.readable {fs : FileSystem PeerId} {n : NodeId} {t : Bytes}
    (h : fs.HasContent n t) (ht : t.length ≤ u64Max) : fs.Readable n t := by
  obtain ⟨name, refs, hm, hholds, -⟩ := h
  exact ⟨name, refs, [], hm, by rwa [List.append_nil], by rwa [List.append_nil]⟩

/-- **A file with given content reads as slices of it.** -/
theorem Readable.read [Sha256] {fs : FileSystem PeerId} {n : NodeId} {t : Bytes}
    (h : fs.Readable n t) (offset length : ℕ) :
    ∃ fs', fs.readFile n offset length
      = some (.ok ((t.take (min (offset + length) t.length)).drop offset), fs') := by
  obtain ⟨name, refs, u, hm, hholds, hu⟩ := h
  have htotal := hholds.totalSize
  obtain ⟨⟨r, fs'⟩, hr⟩ := Option.isSome_iff_exists.1
    (readFile_isSome hm (htotal.trans_le hu) offset length)
  obtain ⟨rfl, -⟩ := readFile_eq_some hm hr
  refine ⟨fs', ?_⟩
  have hmin : min (saturatingAdd offset length) t.length = min (offset + length) t.length := by
    have := List.length_append.symm.trans_le hu
    unfold saturatingAdd
    omega
  rw [hr, window_eq_slice (fun r hr => hholds.size_le hr), hholds.content, hmin, slice_zero,
    List.take_append_of_le_length (min_le_right _ _)]

theorem Readable.readAll [Sha256] {fs : FileSystem PeerId} {n : NodeId} {t : Bytes}
    (h : fs.Readable n t) : ∃ fs', fs.readFileAll n = some (.ok t, fs') := by
  obtain ⟨fs', hr⟩ := h.read 0 t.length
  obtain ⟨name, refs, u, hm, -⟩ := h
  refine ⟨fs', ?_⟩
  rw [readFileAll_eq hm, hr]
  simp

variable [LinearOrder PeerId] [LawfulCrdtTree PeerId]

/-- New metadata for a node where it is takes effect. -/
theorem metadata_replace {fs fs' : FileSystem PeerId} (h : fs.tree.Sound) {now : ℕ}
    (hnow : fs.tree.Newest now) {n parent : NodeId} {name : String} {size : ℕ}
    {refs : List ChunkRef} (hm : fs.metadata n = .ok (.regularFile name size refs))
    (hp : fs.tree.parentId n = some parent) (m : NodeMeta)
    (ht : fs'.tree = (fs.tree.issue now n parent m).2) : fs'.metadata n = .ok m := by
  have hroot : n ≠ NodeId.root := by
    rintro rfl
    rw [metadata_root] at hm
    cases hm
  have htrash : parent ≠ NodeId.trash := by
    rintro rfl
    rw [FileSystem.metadata, if_neg hroot, NodeTree.isTrashed, hp] at hm
    simp at hm
  obtain ⟨x, hx, hxp⟩ := Option.map_eq_some_iff.1 hp
  -- the node stays under its parent, so the move cannot close a cycle
  have hfree : ¬ (fs.tree.issue now n parent m).1.Blocked fs.tree.find :=
    MoveTree.not_blocked_of_parent h.acyclic hx hxp.symm
  have hfind : fs'.tree.find n = some ⟨parent, m⟩ := by
    rw [ht, NodeTree.find_issue_newest hnow]
    exact MoveTree.doOp_child hfree
  have htrashed : fs'.tree.isTrashed n = false := by
    simp [NodeTree.isTrashed, NodeTree.parentId, hfind, htrash]
  rw [FileSystem.metadata, if_neg hroot, htrashed, NodeTree.metadata, hfind]
  rfl

/-- A move of another node leaves the metadata alone. -/
theorem metadata_issue_of_ne {fs fs' : FileSystem PeerId} {now : ℕ}
    (hnow : fs.tree.Newest now) {n c p : NodeId} {m : NodeMeta} (hc : c ≠ n)
    (ht : fs'.tree = (fs.tree.issue now c p m).2) : fs'.metadata n = fs.metadata n := by
  refine metadata_congr ?_
  rw [ht, NodeTree.find_issue_newest hnow]
  exact MoveTree.doOp_of_ne _ _ hc.symm

variable [Sha256] [FastCdc]

/-- **A successful write gives the file its data as content.** -/
theorem hasContent_write [LawfulSha256] [LawfulFastCdc] {fs fs' : FileSystem PeerId}
    (h : fs.Inv) {now : ℕ} (hnow : fs.tree.Newest now) {n : NodeId} {data : Bytes}
    {r : TreeMutation PeerId Unit} (hwrite : fs.writeFile now n data = (.ok r, fs')) :
    fs'.HasContent n data := by
  rcases writeFile_cases fs now n data with ⟨e, he⟩ | ⟨name, size, refs, parent, hm, hp, htry, hw⟩
  · cases he.symm.trans hwrite
  · have hres := (hw _ rfl).symm.trans hwrite
    have hfs' := (Prod.mk.inj hres).2
    have hpins := ChunkStorage.tryPin_ok htry
    have hinv := hpins.inv h.storage
    have hentry : ∀ c ∈ split data,
        fs'.storage.entry c.hash = some ⟨c.data, true⟩ := fun c hc => by
      obtain ⟨d, hd⟩ := ChunkStorage.isPinned_iff.1 (hpins.isPinned hc)
      rw [← hfs']
      exact hd.trans (by rw [← hinv.data_eq hd])
    have hholds := holds_chunks hentry
    rw [flatMap_split] at hholds
    refine ⟨name, _, metadata_replace h.sound hnow hm hp _ (by rw [← hfs']), hholds, ?_⟩
    intro r hr
    obtain ⟨c, hc, rfl⟩ := List.mem_map.1 hr
    exact ChunkStorage.isPinned_iff.2 ⟨_, hentry c hc⟩

omit [FastCdc] in
/-- A cut of a file to at most its size cuts its content. -/
theorem hasContent_truncate {fs fs' : FileSystem PeerId} (h : fs.Inv) {now : ℕ}
    (hnow : fs.tree.Newest now) {n : NodeId} {t : Bytes} (ht : fs.HasContent n t) {k : ℕ}
    (hk : k ≤ t.length) {r : Except FileSystemError (TreeMutation PeerId Unit)}
    (htrunc : fs.truncateFile now n k = (r, fs')) : fs'.HasContent n (t.take k) := by
  obtain ⟨name, refs, hm, hholds, hpinned⟩ := ht
  obtain ⟨-, parent, hp⟩ := exists_parent_of_file hm
  have hfs' := (Prod.mk.inj ((truncateFile_eq hm hp now k rfl).symm.trans htrunc)).2
  refine ⟨name, Chunk.truncate refs k, ?_, ?_, fun r hr => ?_⟩
  · rw [List.length_take, Nat.min_eq_left hk]
    exact metadata_replace h.sound hnow hm hp _ (by rw [← hfs'])
  · rw [← hfs']
    exact holds_truncate hholds k
  · obtain ⟨r', hr', heq⟩ := mem_truncate_hash hr
    rw [← hfs', ← heq]
    exact hpinned r' hr'

/-! ### Calls that leave a file alone -/

omit [LinearOrder PeerId] [LawfulCrdtTree PeerId] [Sha256] [FastCdc] in
/-- The size in a file's metadata. -/
def fileSize (fs : FileSystem PeerId) (n : NodeId) : ℕ :=
  match fs.metadata n with
  | .ok (.regularFile _ size _) => size
  | _ => 0

variable [UuidV5]

/-- A local call other than `evict_chunk` that does not concern the file, or cuts it to at most
its size; and whose timestamp, if it issues one, is newer than the log. -/
structure LeavesFile (n : NodeId) (e : Event PeerId) (fs : FileSystem PeerId) : Prop where
  newest : emitted e fs ≠ [] → fs.tree.Newest (e.1 0)
  keeps : ∀ x, e.2 ≠ .evictChunk x
  isLocal : ∀ ops, e.2 ≠ .applyOperations ops
  file : (∃ k, e.2 = .mutate (.truncateFile n k) ∧ k ≤ fs.fileSize n) ∨
    ∀ op ∈ emitted e fs, op.child ≠ n

/-- The smallest size that the calls of a run set for a file of the given size. -/
def smallestSize (n : NodeId) (size : ℕ) (events : List (Event PeerId)) : ℕ :=
  events.foldl (fun size e => match e.2 with
    | .mutate (.truncateFile m k) => if m = n then min size k else size
    | _ => size) size

omit [CrdtTree PeerId] [LinearOrder PeerId] [LawfulCrdtTree PeerId] [Sha256] [FastCdc] [UuidV5] in
theorem smallestSize_truncate (n : NodeId) (size : ℕ) (events : List (Event PeerId))
    (now : ℕ → ℕ) (k : ℕ) :
    smallestSize n size (events ++ [(now, .mutate (.truncateFile n k))])
      = min (smallestSize n size events) k := by
  simp [smallestSize, List.foldl_append]

omit [CrdtTree PeerId] [LinearOrder PeerId] [LawfulCrdtTree PeerId] [Sha256] [FastCdc] [UuidV5] in
theorem smallestSize_other (n : NodeId) (size : ℕ) (events : List (Event PeerId))
    {e : Event PeerId} (he : ∀ k, e.2 ≠ .mutate (.truncateFile n k)) :
    smallestSize n size (events ++ [e]) = smallestSize n size events := by
  unfold smallestSize
  rw [List.foldl_append]
  obtain ⟨now, call⟩ := e
  rcases call with c | _ | _ | _ | _ | _ | _ | _
  · cases c with
    | truncateFile m k =>
      have hm : m ≠ n := by
        rintro rfl
        exact he k rfl
      simp [hm]
    | _ => rfl
  all_goals rfl

omit [LinearOrder PeerId] [LawfulCrdtTree PeerId] in
/-- A cut of a file reports an operation on it. -/
theorem exists_emitted_truncate {fs : FileSystem PeerId} {n : NodeId} {t : Bytes}
    (ht : fs.HasContent n t) (now : ℕ → ℕ) (k : ℕ) :
    ∃ op ∈ emitted (now, .mutate (.truncateFile n k)) fs, op.child = n := by
  obtain ⟨name, refs, hm, -⟩ := ht
  obtain ⟨-, parent, hp⟩ := exists_parent_of_file hm
  have hres := truncateFile_eq hm hp (now 0) k rfl
  refine ⟨(fs.tree.issue (now 0) n parent (.regularFile name k (Chunk.truncate refs k))).1, ?_, rfl⟩
  simp only [emitted, mutate, Mutation.operations, hres]
  exact List.mem_singleton_self _

/-- A cut of the file that happens, as `truncate_file`. -/
theorem hasContent_step_truncate {fs fs' : FileSystem PeerId} (h : fs.Inv) {n : NodeId}
    {t : Bytes} (ht : fs.HasContent n t) {now : ℕ → ℕ} {k : ℕ}
    (he : LeavesFile n (now, .mutate (.truncateFile n k)) fs)
    (hk : k ≤ fs.fileSize n)
    (hstep : callStep (now, .mutate (.truncateFile n k)) fs = some fs') :
    fs'.HasContent n (t.take k) := by
  obtain ⟨op, hop, -⟩ := exists_emitted_truncate ht now k
  have hops := List.ne_nil_of_mem hop
  have hsize : k ≤ t.length := by
    obtain ⟨name, refs, hm, -⟩ := ht
    simpa [fileSize, hm] using hk
  cases hstep
  exact hasContent_truncate h (he.newest hops) ht hsize rfl

/-- A call that does not concern the file keeps its content. -/
theorem hasContent_step {fs fs' : FileSystem PeerId} (h : fs.Inv) {n : NodeId} {t : Bytes}
    (ht : fs.HasContent n t) {e : Event PeerId} (he : LeavesFile n e fs)
    (hother : ∀ op ∈ emitted e fs, op.child ≠ n) (hstep : callStep e fs = some fs') :
    fs'.HasContent n t := by
  obtain ⟨name, refs, hm, hholds, hpinned⟩ := ht
  have hkeep : ∀ r ∈ refs, fs'.storage.entry r.hash = fs.storage.entry r.hash ∧
      fs'.storage.isPinned r.hash := fun r hr => by
    obtain ⟨d, hd⟩ := ChunkStorage.isPinned_iff.1 (hpinned r hr)
    have hd' := entry_step_of_pinned h hstep (he.keeps r.hash) hd
    exact ⟨hd'.trans hd.symm, ChunkStorage.isPinned_iff.2 ⟨d, hd'⟩⟩
  refine ⟨name, refs, ?_, hholds.frame fun r hr => (hkeep r hr).1, fun r hr => (hkeep r hr).2⟩
  rcases tree_step hstep with ⟨htree, -⟩ | ⟨c, p, m, -, hops, htree⟩ | ⟨ops, hops, -⟩
  · exact (metadata_congr (by rw [htree])).trans hm
  · have hc : c ≠ n := hother _ (by rw [hops]; exact List.mem_singleton_self _)
    rw [metadata_issue_of_ne (he.newest (by simp [hops])) hc htree, hm]
  · exact absurd hops (he.isLocal ops)

/-- What a run of such calls leaves of a file's content. -/
theorem hasContent_run {fs fs' : FileSystem PeerId} (h : fs.Inv) {n : NodeId} {t : Bytes}
    (ht : fs.HasContent n t) {events : List (Event PeerId)}
    (hrun : run callStep events fs = some fs')
    (hmeets : Meets callStep (LeavesFile n) events fs) :
    fs'.Inv ∧ fs'.HasContent n (t.take (smallestSize n t.length events)) := by
  have key : Meets callStep (LeavesFile n) events fs →
      fs'.Inv ∧ fs'.HasContent n (t.take (smallestSize n t.length events)) := by
    refine run_rec (P := fun events fs' => Meets callStep (LeavesFile n) events fs →
      fs'.Inv ∧ fs'.HasContent n (t.take (smallestSize n t.length events))) ?_ ?_ hrun
    · intro _
      exact ⟨h, by simpa [smallestSize] using ht⟩
    · intro events fs₁ e fs₂ hrun₁ ih hstep hmeets
      obtain ⟨hevents, hlast⟩ := meets_concat.1 hmeets
      obtain ⟨hinv, hcontent⟩ := ih hevents
      have he := hlast fs₁ hrun₁
      refine ⟨inv_step hinv hstep, ?_⟩
      by_cases hk : ∃ k, e.2 = .mutate (.truncateFile n k) ∧ k ≤ fs₁.fileSize n
      · obtain ⟨k, hek, hle⟩ := hk
        obtain ⟨now, call⟩ := e
        obtain rfl : call = _ := hek
        rw [smallestSize_truncate, Nat.min_comm, ← List.take_take]
        exact hasContent_step_truncate hinv hcontent he hle hstep
      · have hother := he.file.resolve_left hk
        have hne : ∀ k, e.2 ≠ .mutate (.truncateFile n k) := by
          intro k hek
          obtain ⟨now, call⟩ := e
          obtain rfl : call = _ := hek
          obtain ⟨op, hop, hchild⟩ := exists_emitted_truncate hcontent now k
          exact hother op hop hchild
        rw [smallestSize_other n _ _ hne]
        exact hasContent_step hinv hcontent he hother hstep
  exact key hmeets

/-- **Write and read round trip**: after a successful write and any further local calls that do
not concern the file and do not evict, with cuts of the file to at most its size in between, reads
return the slices of the data cut to the smallest size set. -/
theorem read_after_write [LawfulSha256] [LawfulFastCdc] {fs fs₁ fs₂ : FileSystem PeerId}
    (hreach : fs.Reachable) {now : ℕ} (hnow : fs.tree.Newest now) {n : NodeId} {data : Bytes}
    (hdata : data.length ≤ u64Max) {r : TreeMutation PeerId Unit}
    (hwrite : fs.writeFile now n data = (.ok r, fs₁)) {later : List (Event PeerId)}
    (hrun : run callStep later fs₁ = some fs₂)
    (hlater : Meets callStep (LeavesFile n) later fs₁) :
    let t := data.take (smallestSize n data.length later)
    (∀ offset length, ∃ fs₃, fs₂.readFile n offset length
      = some (.ok ((t.take (min (offset + length) t.length)).drop offset), fs₃)) ∧
      ∃ fs₃, fs₂.readFileAll n = some (.ok t, fs₃) := by
  have hinv := hreach.inv
  have hwritten := hasContent_write hinv hnow hwrite
  have hinv₁ : fs₁.Inv := by
    refine inv_step (e := (fun _ => now, .mutate (.writeFile n data))) hinv ?_
    simp [callStep, mutate, Mutation.operations, hwrite]
  obtain ⟨-, hcontent⟩ := hasContent_run hinv₁ hwritten hrun hlater
  have hlen : (data.take (smallestSize n data.length later)).length ≤ u64Max :=
    (List.length_take_le' _ _).trans hdata
  exact ⟨(hcontent.readable hlen).read, (hcontent.readable hlen).readAll⟩

end Edfs.FileSystem

namespace Edfs.FileSystem

open Execution Reference

/-- The file system of a node that has created the file `f`. -/
def withFile : FileSystem ℕ := ((init (0 : ℕ) 100).mutate 1 (.createFile NodeId.root "f")).2

/-- The id of that file. -/
def fileId : NodeId := ⟨UuidV5.newV5 Uuid.nil "f"⟩

theorem withFile_reachable : withFile.Reachable :=
  ⟨0, 100, [(fun _ => 1, .mutate (.createFile NodeId.root "f"))], rfl⟩

theorem read_after_write_cut :
    let fs₁ := (withFile.writeFile 2 fileId [1, 2, 3]).2
    let later : List (Event ℕ) := [(fun _ => 3, .mutate (.truncateFile fileId 2))]
    ∃ fs₂, run callStep later fs₁ = some fs₂ ∧
      (∀ offset length, ∃ fs₃, fs₂.readFile fileId offset length
        = some (.ok ((([1, 2] : Bytes).take (min (offset + length) 2)).drop offset), fs₃)) ∧
        ∃ fs₃, fs₂.readFileAll fileId = some (.ok ([1, 2] : Bytes), fs₃) := by
  have hlater : Meets callStep (LeavesFile fileId)
      [(fun _ => 3, .mutate (.truncateFile fileId 2))]
      (withFile.writeFile 2 fileId [1, 2, 3]).2 :=
    ⟨⟨fun _ => by decide, by simp, by simp, Or.inl ⟨2, rfl, by decide⟩⟩, fun _ _ => trivial⟩
  have hnewest : withFile.tree.Newest 2 := by decide
  have hlength : ([1, 2, 3] : Bytes).length ≤ u64Max := by decide
  exact ⟨_, rfl, read_after_write withFile_reachable hnewest hlength rfl rfl hlater⟩

end Edfs.FileSystem
