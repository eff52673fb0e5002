import Edfs.Filesystem.Namespace

/-!
# The chunks that are reachable

`FileSystem::reachable_chunk_hashes` walks the tree from the root, directory by directory, with a
queue and a set of visited nodes. It finds the chunks of all files below the root, and of no
others, whatever the order in which the tree lists children; so replicas with the same tree find
the same chunks.

* `Walked`, `LiveChunk`: the directories below the root, and the chunks of the files in them;
* `visitChildren_spec`: what the inner loop adds;
* `Walk`: what the outer loop keeps; `walk_step`;
* `mem_reachableChunkHashes`, `reachableChunkHashes_congr`.
-/

namespace Edfs

namespace FileSystem

variable {PeerId : Type} [CrdtTree PeerId] {fs : FileSystem PeerId}

/-- The directories that the walk comes to: the root, and those below it that are not the trash. -/
inductive Walked (fs : FileSystem PeerId) : NodeId → Prop
  | root : Walked fs NodeId.root
  | child {d p : NodeId} {name : String} (hp : Walked fs p) (htrash : d ≠ NodeId.trash)
      (hd : fs.tree.find d = some ⟨p, .directory name⟩) : Walked fs d

/-- A node hangs under a directory that the walk comes to. -/
def Seen (fs : FileSystem PeerId) (n : NodeId) : Prop :=
  n ≠ NodeId.trash ∧ ∃ p m, fs.Walked p ∧ fs.tree.find n = some ⟨p, m⟩

/-- A node is a file with the given chunk. -/
def FileWith (fs : FileSystem PeerId) (n : NodeId) (h : ChunkHash) : Prop :=
  ∃ name size chunkRefs, fs.tree.metadata n = some (.regularFile name size chunkRefs) ∧
    h ∈ chunkRefs.map ChunkRef.hash

def IsDirectory (fs : FileSystem PeerId) (n : NodeId) : Prop :=
  ∃ name, fs.tree.metadata n = some (.directory name)

/-- A chunk of a file below the root. -/
def LiveChunk (fs : FileSystem PeerId) (h : ChunkHash) : Prop :=
  ∃ n, n ≠ NodeId.root ∧ fs.Seen n ∧ fs.FileWith n h

theorem Walked.known {d : NodeId} (h : fs.Walked d) : fs.Known d := by
  cases h with
  | root => exact Or.inl rfl
  | child _ _ hd => exact Or.inr ⟨_, hd⟩

theorem Seen.walked {n : NodeId} (h : fs.Seen n) (hdir : fs.IsDirectory n) : fs.Walked n := by
  obtain ⟨htrash, p, m, hp, hn⟩ := h
  obtain ⟨name, hname⟩ := hdir
  obtain ⟨q, hq⟩ := treeMetadata_eq_some.1 hname
  cases hn.symm.trans hq
  exact .child hp htrash hq

/-! ### The inner loop -/

/-- Going through a list of children: what is visited then, what comes into the queue and what has
been found. -/
structure Visits (fs : FileSystem PeerId) (children : List NodeId) (visited : Finset NodeId)
    (reachable : Finset ChunkHash) (visited' : Finset NodeId) (added : List NodeId)
    (reachable' : Finset ChunkHash) : Prop where
  mem_visited : ∀ n, n ∈ visited' ↔ n ∈ visited ∨ n ∈ children ∧ n ≠ NodeId.trash
  nodup : added.Nodup
  mem_added : ∀ n, n ∈ added ↔
    n ∈ children ∧ n ≠ NodeId.trash ∧ n ∉ visited ∧ fs.IsDirectory n
  mem_found : ∀ h, h ∈ reachable' ↔ h ∈ reachable ∨
    ∃ n ∈ children, n ≠ NodeId.trash ∧ n ∉ visited ∧ fs.FileWith n h

section Visits

variable {children : List NodeId} {visited visited' : Finset NodeId} {added : List NodeId}
  {reachable reachable' found : Finset ChunkHash} {c : NodeId}

/-- The trash, and a child that has been visited, are passed over. -/
theorem Visits.skip (h : fs.Visits children visited reachable visited' added reachable')
    (hskip : c = NodeId.trash ∨ c ∈ visited) :
    fs.Visits (c :: children) visited reachable visited' added reachable' := by
  have hrest : ∀ n, n ≠ NodeId.trash → n ∉ visited → (n ∈ c :: children ↔ n ∈ children) := by
    intro n htrash hn
    rw [List.mem_cons, or_iff_right]
    rintro rfl
    exact hskip.elim htrash hn
  refine ⟨fun n => ?_, h.nodup, fun n => ?_, fun x => ?_⟩
  · rw [h.mem_visited]
    by_cases hn : n ∈ visited
    · simp only [hn, true_or]
    · exact or_congr_right (and_congr_left fun htrash => (hrest n htrash hn).symm)
  · rw [h.mem_added]
    exact ⟨fun ⟨h1, h2, h3, h4⟩ => ⟨(hrest n h2 h3).2 h1, h2, h3, h4⟩,
      fun ⟨h1, h2, h3, h4⟩ => ⟨(hrest n h2 h3).1 h1, h2, h3, h4⟩⟩
  · rw [h.mem_found]
    refine or_congr_right (exists_congr fun n => ?_)
    exact ⟨fun ⟨h1, h2, h3, h4⟩ => ⟨(hrest n h2 h3).2 h1, h2, h3, h4⟩,
      fun ⟨h1, h2, h3, h4⟩ => ⟨(hrest n h2 h3).1 h1, h2, h3, h4⟩⟩

/-- Another child is visited, and goes into the queue or gives its chunks. -/
theorem Visits.visit (h : fs.Visits children (insert c visited) found visited' added reachable')
    (htrash : c ≠ NodeId.trash) (hnew : c ∉ visited) {queued : List NodeId}
    (hnodup : queued.Nodup) (hqueued : ∀ n, n ∈ queued ↔ n = c ∧ fs.IsDirectory n)
    (hfound : ∀ x, x ∈ found ↔ x ∈ reachable ∨ fs.FileWith c x) :
    fs.Visits (c :: children) visited reachable visited' (queued ++ added) reachable' := by
  have hnot : ∀ {n}, n ∉ insert c visited ↔ n ≠ c ∧ n ∉ visited := fun {n} => by
    rw [Finset.mem_insert, not_or]
  refine ⟨fun n => ?_, ?_, fun n => ?_, fun x => ?_⟩
  · rw [h.mem_visited, Finset.mem_insert, List.mem_cons]
    constructor
    · rintro ((rfl | hn) | ⟨hn, hn'⟩)
      · exact Or.inr ⟨Or.inl rfl, htrash⟩
      · exact Or.inl hn
      · exact Or.inr ⟨Or.inr hn, hn'⟩
    · rintro (hn | ⟨rfl | hn, hn'⟩)
      · exact Or.inl (Or.inr hn)
      · exact Or.inl (Or.inl rfl)
      · exact Or.inr ⟨hn, hn'⟩
  · refine List.nodup_append.2 ⟨hnodup, h.nodup, ?_⟩
    rintro x hx y hy rfl
    exact (hnot.1 ((h.mem_added x).1 hy).2.2.1).1 ((hqueued x).1 hx).1
  · rw [List.mem_append, hqueued, h.mem_added, List.mem_cons, hnot]
    constructor
    · rintro (⟨rfl, hdir⟩ | ⟨hn, hn', ⟨-, hold⟩, hdir⟩)
      · exact ⟨Or.inl rfl, htrash, hnew, hdir⟩
      · exact ⟨Or.inr hn, hn', hold, hdir⟩
    · rintro ⟨hn, hn', hold, hdir⟩
      by_cases hc : n = c
      · exact Or.inl ⟨hc, hdir⟩
      · exact Or.inr ⟨hn.resolve_left hc, hn', ⟨hc, hold⟩, hdir⟩
  · rw [h.mem_found, hfound]
    constructor
    · rintro ((hx | hfile) | ⟨n, hn, hn', hnn, hfile⟩)
      · exact Or.inl hx
      · exact Or.inr ⟨c, List.mem_cons_self, htrash, hnew, hfile⟩
      · exact Or.inr ⟨n, List.mem_cons_of_mem c hn, hn', (hnot.1 hnn).2, hfile⟩
    · rintro (hx | ⟨n, hn, hn', hold, hfile⟩)
      · exact Or.inl (Or.inl hx)
      · by_cases hc : n = c
        · exact Or.inl (Or.inr (hc ▸ hfile))
        · exact Or.inr ⟨n, (List.mem_cons.1 hn).resolve_left hc, hn', hnot.2 ⟨hc, hold⟩, hfile⟩

end Visits

variable (fs) in
/-- **What the inner loop adds** to the visited nodes, the queue and the hashes found. -/
theorem visitChildren_spec (children : List NodeId) (visited : Finset NodeId)
    (queue : List NodeId) (reachable : Finset ChunkHash) :
    ∃ visited' added reachable',
      fs.visitChildren children visited queue reachable = (visited', queue ++ added, reachable') ∧
      fs.Visits children visited reachable visited' added reachable' := by
  induction children generalizing visited queue reachable with
  | nil =>
    refine ⟨visited, [], reachable, by rw [List.append_nil]; rfl, ?_⟩
    constructor <;> simp
  | cons c rest ih =>
    unfold visitChildren
    by_cases hskip : c = NodeId.trash ∨ c ∈ visited
    · rw [if_pos hskip]
      obtain ⟨visited', added, reachable', heq, hrest⟩ := ih visited queue reachable
      exact ⟨visited', added, reachable', heq, hrest.skip hskip⟩
    · rw [if_neg hskip]
      obtain ⟨htrash, hnew⟩ := not_or.1 hskip
      cases hm : fs.tree.metadata c with
      | none =>
        obtain ⟨visited', added, reachable', heq, hrest⟩ := ih (insert c visited) queue reachable
        refine ⟨visited', added, reachable', heq, ?_⟩
        exact hrest.visit htrash hnew List.nodup_nil (by simp [IsDirectory, hm])
          (by simp [FileWith, hm])
      | some m =>
        cases m with
        | directory name =>
          obtain ⟨visited', added, reachable', heq, hrest⟩ :=
            ih (insert c visited) (queue ++ [c]) reachable
          refine ⟨visited', c :: added, reachable', ?_, ?_⟩
          · exact heq.trans (by rw [List.append_assoc, List.singleton_append])
          · refine hrest.visit htrash hnew (List.nodup_singleton c) (fun n => ?_)
              (by simp [FileWith, hm])
            rw [List.mem_singleton]
            exact (and_iff_left_of_imp fun hn => ⟨name, hn ▸ hm⟩).symm
        | regularFile name size chunkRefs =>
          obtain ⟨visited', added, reachable', heq, hrest⟩ := ih (insert c visited) queue
            (reachable ∪ (chunkRefs.map ChunkRef.hash).toFinset)
          refine ⟨visited', added, reachable', heq, ?_⟩
          exact hrest.visit htrash hnew List.nodup_nil (by simp [IsDirectory, hm])
            (by simp [FileWith, hm])
        | symlink name target =>
          obtain ⟨visited', added, reachable', heq, hrest⟩ :=
            ih (insert c visited) queue reachable
          refine ⟨visited', added, reachable', heq, ?_⟩
          exact hrest.visit htrash hnew List.nodup_nil (by simp [IsDirectory, hm])
            (by simp [FileWith, hm])

/-! ### The outer loop -/

/-- What the outer loop keeps: the visited nodes are seen, those of them that are walked are in the
queue or done, and their chunks have been found. -/
structure Walk (fs : FileSystem PeerId) (visited : Finset NodeId) (queue : List NodeId)
    (reachable : Finset ChunkHash) : Prop where
  root : NodeId.root ∈ visited
  seen : ∀ n ∈ visited, n = NodeId.root ∨ fs.Seen n
  walked : ∀ d ∈ queue, fs.Walked d
  done : ∀ d, fs.Walked d → d ∈ visited → d ∈ queue ∨
    ∀ n m, n ≠ NodeId.trash → fs.tree.find n = some ⟨d, m⟩ → n ∈ visited
  found : ∀ h, h ∈ reachable ↔ ∃ n ∈ visited, n ≠ NodeId.root ∧ fs.FileWith n h

theorem walk_start : fs.Walk {NodeId.root} [NodeId.root] ∅ where
  root := Finset.mem_singleton_self _
  seen _ hn := Or.inl (Finset.mem_singleton.1 hn)
  walked d hd := List.mem_singleton.1 hd ▸ .root
  done d _ hd := Or.inl (List.mem_singleton.2 (Finset.mem_singleton.1 hd))
  found h := by simp

/-- When the queue is empty, everything that can be seen has been visited. -/
theorem Walk.finished {visited : Finset NodeId} {reachable : Finset ChunkHash}
    (hw : fs.Walk visited [] reachable) (h : ChunkHash) : h ∈ reachable ↔ fs.LiveChunk h := by
  have hdone : ∀ d, fs.Walked d → d ∈ visited → ∀ n m, n ≠ NodeId.trash →
      fs.tree.find n = some ⟨d, m⟩ → n ∈ visited := fun d hd hv =>
    (hw.done d hd hv).resolve_left List.not_mem_nil
  have hwalked : ∀ d, fs.Walked d → d ∈ visited := by
    intro d hd
    induction hd with
    | root => exact hw.root
    | child hp htrash hd ih => exact hdone _ hp ih _ _ htrash hd
  rw [hw.found]
  constructor
  · rintro ⟨n, hn, hroot, hfile⟩
    exact ⟨n, hroot, (hw.seen n hn).resolve_left hroot, hfile⟩
  · rintro ⟨n, hroot, ⟨htrash, p, m, hp, hn⟩, hfile⟩
    exact ⟨n, hdone p hp (hwalked p hp) n m htrash hn, hroot, hfile⟩

variable [LinearOrder PeerId] [LawfulCrdtTree PeerId]

section Step

variable {d : NodeId} {queue added : List NodeId} {visited visited' : Finset NodeId}
  {reachable reachable' : Finset ChunkHash}

/-- **One round of the outer loop.** -/
theorem walk_step (hw : fs.Walk visited (d :: queue) reachable)
    (hv : fs.Visits (CrdtTree.children fs.tree.tree d) visited reachable visited' added
      reachable') : fs.Walk visited' (queue ++ added) reachable' := by
  have hd : fs.Walked d := hw.walked d List.mem_cons_self
  have hold : ∀ n ∈ visited, n ∈ visited' := fun n hn => (hv.mem_visited n).2 (Or.inl hn)
  -- the children of `d` but for the trash have been visited now
  have hchildren : ∀ n m, n ≠ NodeId.trash → fs.tree.find n = some ⟨d, m⟩ → n ∈ visited' :=
    fun n m htrash hn => (hv.mem_visited n).2 (Or.inr ⟨NodeTree.mem_crdtChildren.2 ⟨m, hn⟩, htrash⟩)
  have hseen : ∀ n ∈ visited', n ∈ visited ∨ fs.Seen n := by
    intro n hn
    refine ((hv.mem_visited n).1 hn).imp_right ?_
    rintro ⟨hchild, htrash⟩
    obtain ⟨m, hm⟩ := NodeTree.mem_crdtChildren.1 hchild
    exact ⟨htrash, d, m, hd, hm⟩
  constructor
  · exact hold _ hw.root
  · intro n hn
    rcases hseen n hn with hn | hn
    · exact hw.seen n hn
    · exact Or.inr hn
  · intro n hn
    rcases List.mem_append.1 hn with hn | hn
    · exact hw.walked n (List.mem_cons_of_mem d hn)
    · obtain ⟨hchild, htrash, -, hdir⟩ := (hv.mem_added n).1 hn
      obtain ⟨m, hm⟩ := NodeTree.mem_crdtChildren.1 hchild
      exact Seen.walked ⟨htrash, d, m, hd, hm⟩ hdir
  · intro p hp hpv
    by_cases hpd : p = d
    · subst hpd
      exact Or.inr hchildren
    by_cases hpold : p ∈ visited
    · rcases hw.done p hp hpold with hq | hq
      · exact Or.inl (List.mem_append_left _ ((List.mem_cons.1 hq).resolve_left hpd))
      · exact Or.inr fun n m htrash hn => hold n (hq n m htrash hn)
    · -- a directory that has just been visited is in the queue
      refine Or.inl (List.mem_append_right _ ((hv.mem_added p).2 ?_))
      obtain ⟨hchild, htrash⟩ := ((hv.mem_visited p).1 hpv).resolve_left hpold
      refine ⟨hchild, htrash, hpold, ?_⟩
      cases hp with
      | root => exact absurd hw.root hpold
      | child _ _ hfind => exact ⟨_, treeMetadata_eq_some.2 ⟨_, hfind⟩⟩
  · intro h
    rw [hv.mem_found, hw.found]
    constructor
    · rintro (⟨n, hn, hroot, hfile⟩ | ⟨n, hn, htrash, hnew, hfile⟩)
      · exact ⟨n, hold n hn, hroot, hfile⟩
      · refine ⟨n, (hv.mem_visited n).2 (Or.inr ⟨hn, htrash⟩), ?_, hfile⟩
        rintro rfl
        exact hnew hw.root
    · rintro ⟨n, hn, hroot, hfile⟩
      by_cases hnold : n ∈ visited
      · exact Or.inl ⟨n, hnold, hroot, hfile⟩
      · obtain ⟨hchild, htrash⟩ := ((hv.mem_visited n).1 hn).resolve_left hnold
        exact Or.inr ⟨n, hchild, htrash, hnold, hfile⟩

/-- The nodes that operations of the log have moved. -/
def moved (fs : FileSystem PeerId) : Finset NodeId :=
  (fs.tree.moves.map MoveTree.Move.child).toFinset

omit [LinearOrder PeerId] [LawfulCrdtTree PeerId] in
theorem card_moved (fs : FileSystem PeerId) : fs.moved.card ≤ fs.tree.operationIds.length := by
  rw [NodeTree.operationIds_eq, List.length_map, ← List.length_map MoveTree.Move.child]
  exact List.toFinset_card_le _

variable (queue) in
/-- What comes into the queue has not been visited before, and has been now. -/
theorem length_add_card_le (hsound : fs.tree.Sound)
    (hv : fs.Visits (CrdtTree.children fs.tree.tree d) visited reachable visited' added
      reachable') : (queue ++ added).length + (fs.moved \ visited').card ≤
      queue.length + (fs.moved \ visited).card := by
  have hdisjoint : Disjoint added.toFinset (fs.moved \ visited') := by
    refine Finset.disjoint_left.2 fun n hn hn' => (Finset.mem_sdiff.1 hn').2 ?_
    obtain ⟨hchild, htrash, -⟩ := (hv.mem_added n).1 (List.mem_toFinset.1 hn)
    exact (hv.mem_visited n).2 (Or.inr ⟨hchild, htrash⟩)
  have hsub : added.toFinset ∪ (fs.moved \ visited') ⊆ fs.moved \ visited := by
    refine Finset.union_subset (fun n hn => ?_) (fun n hn => ?_)
    · obtain ⟨hchild, -, hnew, -⟩ := (hv.mem_added n).1 (List.mem_toFinset.1 hn)
      obtain ⟨m, hm⟩ := NodeTree.mem_crdtChildren.1 hchild
      obtain ⟨op, hop, hopn, -⟩ := MoveTree.Coherent.exists_move hsound hm
      exact Finset.mem_sdiff.2 ⟨List.mem_toFinset.2 (List.mem_map.2 ⟨op, hop, hopn⟩), hnew⟩
    · obtain ⟨hmoved, hn'⟩ := Finset.mem_sdiff.1 hn
      exact Finset.mem_sdiff.2 ⟨hmoved, fun hold => hn' ((hv.mem_visited n).2 (Or.inl hold))⟩
  have hcard := Finset.card_le_card hsub
  rw [Finset.card_union_of_disjoint hdisjoint, List.toFinset_card_of_nodup hv.nodup] at hcard
  rw [List.length_append, Nat.add_assoc]
  exact Nat.add_le_add_left hcard _

end Step

/-- The outer loop finds what is live, if it may go on until the queue is empty. -/
theorem mem_reachableLoop (hsound : fs.tree.Sound) {fuel : ℕ} {visited : Finset NodeId}
    {queue : List NodeId} {reachable : Finset ChunkHash} (hw : fs.Walk visited queue reachable)
    (hfuel : queue.length + (fs.moved \ visited).card ≤ fuel) (h : ChunkHash) :
    h ∈ fs.reachableLoop fuel visited queue reachable ↔ fs.LiveChunk h := by
  induction fuel generalizing visited queue reachable with
  | zero =>
    obtain rfl : queue = [] := List.length_eq_zero_iff.1 (by omega)
    exact hw.finished h
  | succ fuel ih =>
    cases queue with
    | nil => exact hw.finished h
    | cons d queue =>
      obtain ⟨visited', added, reachable', heq, hv⟩ :=
        visitChildren_spec fs (CrdtTree.children fs.tree.tree d) visited queue reachable
      have hchildren := children_of_known (hw.walked d List.mem_cons_self).known
      have hle := length_add_card_le queue hsound hv
      rw [List.length_cons] at hfuel
      rw [reachableLoop, hchildren]
      simp only [heq]
      exact ih (walk_step hw hv) (by omega)

/-- **The reachable chunks are those of the files below the root.** -/
theorem mem_reachableChunkHashes (hsound : fs.tree.Sound) (h : ChunkHash) :
    h ∈ fs.reachableChunkHashes ↔ fs.LiveChunk h := by
  refine mem_reachableLoop hsound walk_start ?_ h
  have hcard : (fs.moved \ {NodeId.root}).card ≤ fs.tree.operationIds.length :=
    (Finset.card_le_card Finset.sdiff_subset).trans fs.card_moved
  rw [List.length_singleton, Nat.add_comm]
  exact Nat.add_le_add_right hcard 1

omit [LinearOrder PeerId] [LawfulCrdtTree PeerId] in
/-- What is live depends on the tree alone. -/
theorem liveChunk_congr {fs' : FileSystem PeerId} (h : fs.tree.find = fs'.tree.find)
    {x : ChunkHash} (hx : fs.LiveChunk x) : fs'.LiveChunk x := by
  have hmeta : fs.tree.metadata = fs'.tree.metadata :=
    funext fun n => by rw [NodeTree.metadata, NodeTree.metadata, h]
  have hwalked : ∀ d, fs.Walked d → fs'.Walked d := by
    intro d hd
    induction hd with
    | root => exact .root
    | child _ htrash hd ih => exact .child ih htrash (h ▸ hd)
  obtain ⟨n, hroot, ⟨htrash, p, m, hp, hn⟩, hfile⟩ := hx
  refine ⟨n, hroot, ⟨htrash, p, m, hwalked p hp, h ▸ hn⟩, ?_⟩
  rwa [FileWith, ← hmeta]

/-- Replicas with the same tree reach the same chunks. -/
theorem reachableChunkHashes_congr {fs' : FileSystem PeerId} (hsound : fs.tree.Sound)
    (hsound' : fs'.tree.Sound) (h : fs.tree.find = fs'.tree.find) :
    fs.reachableChunkHashes = fs'.reachableChunkHashes := by
  ext x
  rw [mem_reachableChunkHashes hsound, mem_reachableChunkHashes hsound']
  exact ⟨liveChunk_congr h, liveChunk_congr h.symm⟩

end FileSystem

end Edfs
