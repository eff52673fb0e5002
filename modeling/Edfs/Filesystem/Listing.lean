import Edfs.Filesystem.LiveChunks

/-!
# The walk of the replication and the listings of the user

`reachable_chunk_hashes` searches the tree with a queue and a set of visited nodes, and asks the
tree for the kind of each child. A user who lists directories from the root on goes by
`list_directory`, which leaves out what is in the trash. Both come to the same files.

* `listRecursively`: `list_directory`, from a node into every entry listed as a directory;
* `reachableLoopChecked`: the walk, with no result when it runs out of fuel;
* `mem_listRecursively`, the entries that the listings come to: no path is longer than the number of
  nodes;
* `reachable_matches_listing`.
-/

namespace Edfs

namespace FileSystem

variable {PeerId : Type} [CrdtTree PeerId] {fs : FileSystem PeerId}

/-! ### The listings -/

/-- What `list_directory` lists from a node on, into every entry that it lists as a directory, for
at most `fuel` levels. -/
def listRecursively (fs : FileSystem PeerId) : ℕ → NodeId → List (NodeId × String × NodeMeta)
  | 0, _ => []
  | fuel + 1, n =>
    match fs.listDirectory n with
    | .error _ => []
    | .ok entries => entries.flatMap fun e =>
        e :: (if e.2.2.isDirectory then fs.listRecursively fuel e.1 else [])

/-- The outer loop of `reachable_chunk_hashes`; it has no result when `fuel` queue entries are not
enough. -/
def reachableLoopChecked (fs : FileSystem PeerId) :
    ℕ → Finset NodeId → List NodeId → Finset ChunkHash → Option (Finset ChunkHash)
  | _, _, [], reachable => some reachable
  | 0, _, _ :: _, _ => none
  | fuel + 1, visited, nodeId :: queue, reachable =>
    match fs.tree.children nodeId with
    | .error _ => fs.reachableLoopChecked fuel visited queue reachable
    | .ok children =>
      let (visited, queue, reachable) := fs.visitChildren children visited queue reachable
      fs.reachableLoopChecked fuel visited queue reachable

theorem Walked.live {d : NodeId} (h : fs.Walked d) : fs.Live d := by
  induction h with
  | root => exact .root
  | child _ _ hd ih => exact .child ih hd

variable [LinearOrder PeerId] [LawfulCrdtTree PeerId]

/-- A directory that the walk comes to lists its children in the tree. -/
theorem exists_listing (h : fs.Rooted) {d : NodeId} (hd : fs.Walked d) :
    ∃ entries, fs.listDirectory d = .ok entries ∧
      ∀ e, e ∈ entries ↔ fs.tree.find e.1 = some ⟨d, e.2.2⟩ ∧ e.2.1 = e.2.2.name := by
  obtain ⟨name, hname⟩ := hd.live.metadata h
  have hlist := listDirectory_of_known hd.known hname
  have htrash : d ≠ NodeId.trash := hd.live.ne_trash h
  refine ⟨_, hlist, fun e => ⟨fun he => ?_, fun he => ?_⟩⟩
  · obtain ⟨c, hc, hce⟩ := List.mem_filterMap.1 he
    obtain ⟨m, hm⟩ := NodeTree.mem_crdtChildren.1 hc
    rw [metadata_of_child h htrash hm] at hce
    obtain rfl := Option.some.inj hce
    exact ⟨hm, rfl⟩
  · obtain ⟨n, x, m⟩ := e
    obtain ⟨hn, hname⟩ := he
    obtain rfl : x = m.name := hname
    exact mem_entries h htrash hn

/-- The listings come only to children of directories that the walk comes to. -/
theorem of_mem_listRecursively (h : fs.Rooted) {fuel : ℕ} {d : NodeId} (hd : fs.Walked d)
    {e : NodeId × String × NodeMeta} (he : e ∈ fs.listRecursively fuel d) :
    ∃ p, fs.Walked p ∧ fs.tree.find e.1 = some ⟨p, e.2.2⟩ := by
  induction fuel generalizing d with
  | zero => exact absurd he List.not_mem_nil
  | succ fuel ih =>
    obtain ⟨entries, hlist, hmem⟩ := exists_listing h hd
    rw [listRecursively, hlist] at he
    obtain ⟨c, hc, hce⟩ := List.mem_flatMap.1 he
    obtain ⟨hfind, -⟩ := (hmem c).1 hc
    rcases List.mem_cons.1 hce with rfl | hbelow
    · exact ⟨d, hd, hfind⟩
    · split_ifs at hbelow with hdir
      · obtain ⟨name, hname⟩ := NodeMeta.exists_of_isDirectory hdir
        exact ih (.child hd (h.ne_trash hfind) (hname ▸ hfind)) hbelow
      · exact absurd hbelow List.not_mem_nil

/-- The way from the root to a directory: no node occurs on it twice, and the listings follow it. -/
theorem exists_path (h : fs.Rooted) {d : NodeId} (hd : fs.Walked d) :
    ∃ path ⊆ fs.moved, (∀ a ∈ path, a = d ∨ fs.tree.state.tree.Ancestor d a) ∧
      ∀ fuel, fs.listRecursively fuel d ⊆ fs.listRecursively (fuel + path.card) NodeId.root := by
  induction hd with
  | root => exact ⟨∅, Finset.empty_subset _, by simp, fun fuel => List.Subset.refl _⟩
  | @child d p name hp htrash hd ih =>
    obtain ⟨path, hmoved, habove, hlists⟩ := ih
    have hedge : fs.tree.state.tree.Edge d p := (NodeTree.edge_iff _ _ _).2 ⟨_, hd⟩
    have hnew : d ∉ path := fun hmem => by
      rcases habove d hmem with rfl | hup
      · exact h.sound.acyclic d (.single hedge)
      · exact h.sound.acyclic d (.head hedge hup)
    refine ⟨insert d path, ?_, ?_, fun fuel e he => ?_⟩
    · obtain ⟨op, hop, hchild, -⟩ := MoveTree.Coherent.exists_move h.sound hd
      refine Finset.insert_subset ?_ hmoved
      exact List.mem_toFinset.2 (List.mem_map.2 ⟨op, hop, hchild⟩)
    · intro a ha
      rcases Finset.mem_insert.1 ha with rfl | ha
      · exact .inl rfl
      · right
        rcases habove a ha with rfl | hup
        · exact .single hedge
        · exact .head hedge hup
    · obtain ⟨entries, hlist, hmem⟩ := exists_listing h hp
      rw [Finset.card_insert_of_notMem hnew,
        show fuel + (path.card + 1) = fuel + 1 + path.card by omega]
      refine hlists (fuel + 1) ?_
      rw [listRecursively, hlist]
      refine List.mem_flatMap.2 ⟨(d, name, .directory name), (hmem _).2 ⟨hd, rfl⟩, ?_⟩
      exact List.mem_cons_of_mem _ he

/-- **What the listings come to**, once they may go deep enough. -/
theorem mem_listRecursively (h : fs.Rooted) {fuel : ℕ}
    (hfuel : fs.tree.operationIds.length < fuel) {n : NodeId} {m : NodeMeta} :
    (n, m.name, m) ∈ fs.listRecursively fuel NodeId.root ↔
      ∃ p, fs.Walked p ∧ fs.tree.find n = some ⟨p, m⟩ := by
  constructor
  · intro he
    exact of_mem_listRecursively h .root he
  · rintro ⟨p, hp, hn⟩
    obtain ⟨path, hmoved, -, hlists⟩ := exists_path h hp
    have hcard : path.card ≤ fs.tree.operationIds.length :=
      (Finset.card_le_card hmoved).trans fs.card_moved
    obtain ⟨entries, hlist, hmem⟩ := exists_listing h hp
    obtain ⟨k, rfl⟩ : ∃ k, fuel = k + 1 + path.card := ⟨fuel - 1 - path.card, by omega⟩
    refine hlists (k + 1) ?_
    rw [listRecursively, hlist]
    exact List.mem_flatMap.2 ⟨(n, m.name, m), (hmem _).2 ⟨hn, rfl⟩, List.mem_cons_self⟩

/-! ### The walk comes to an end -/

/-- The walk needs no more queue entries than there are nodes. -/
theorem reachableLoopChecked_eq (hsound : fs.tree.Sound) {fuel : ℕ} {visited : Finset NodeId}
    {queue : List NodeId} {reachable : Finset ChunkHash} (hw : fs.Walk visited queue reachable)
    (hfuel : queue.length + (fs.moved \ visited).card ≤ fuel) :
    fs.reachableLoopChecked fuel visited queue reachable
      = some (fs.reachableLoop fuel visited queue reachable) := by
  induction fuel generalizing visited queue reachable with
  | zero =>
    obtain rfl : queue = [] := List.length_eq_zero_iff.1 (by omega)
    rfl
  | succ fuel ih =>
    cases queue with
    | nil => rfl
    | cons d queue =>
      obtain ⟨visited', added, reachable', heq, hv⟩ :=
        visitChildren_spec fs (CrdtTree.children fs.tree.tree d) visited queue reachable
      have hchildren := children_of_known (hw.walked d List.mem_cons_self).known
      have hle := length_add_card_le queue hsound hv
      rw [List.length_cons] at hfuel
      rw [reachableLoopChecked, reachableLoop, hchildren]
      simp only [heq]
      exact ih (walk_step hw hv) (by omega)

/-! ### What is left out -/

omit [LawfulCrdtTree PeerId] in
/-- Everything above a node that the walk comes to is the root or a directory outside the trash. -/
theorem Walked.of_ancestor (h : fs.Rooted) {d a : NodeId} (hd : fs.Walked d)
    (ha : fs.tree.state.tree.Ancestor d a) : fs.Walked a := by
  induction hd with
  | root => exact absurd ha (MoveTree.Tree.not_ancestor_of_none h.root a)
  | @child d p name hp htrash hd ih =>
    rcases MoveTree.Tree.ancestor_cases hd ha with rfl | hrest
    · exact hp
    · exact ih hrest

/-- A node lies in the trash, below a trashed node, or below a node that is no directory. -/
def CutOff (fs : FileSystem PeerId) (n : NodeId) : Prop :=
  ∃ a, fs.tree.state.tree.Ancestor n a ∧
    (a = NodeId.trash ∨ a ≠ NodeId.root ∧ ¬ fs.IsDirectory a)

omit [LawfulCrdtTree PeerId] in
theorem Seen.not_cutOff (h : fs.Rooted) {n : NodeId} (hn : fs.Seen n) : ¬ fs.CutOff n := by
  rintro ⟨a, ha, hcut⟩
  obtain ⟨-, p, m, hp, hfind⟩ := hn
  have hwalked : fs.Walked a := by
    rcases MoveTree.Tree.ancestor_cases hfind ha with rfl | hrest
    · exact hp
    · exact hp.of_ancestor h hrest
  rcases hcut with rfl | ⟨hroot, hnot⟩
  · exact hwalked.live.ne_trash h rfl
  · cases hwalked with
    | root => exact hroot rfl
    | child _ _ hfind => exact hnot ⟨_, treeMetadata_eq_some.2 ⟨_, hfind⟩⟩

/-! ### The two together -/

theorem rooted_of_reachable [UuidV5] [Sha256] [FastCdc] (h : fs.Reachable)
    (hmoved : ∀ op ∈ fs.tree.moves, op.child.isReserved = false) : fs.Rooted := by
  have hsound := h.inv.sound
  have hnone : ∀ n : NodeId, n.isReserved = true → fs.tree.find n = none := by
    intro n hn
    by_contra hsome
    obtain ⟨x, hx⟩ := Option.ne_none_iff_exists'.1 hsome
    obtain ⟨op, hop, rfl, -⟩ := MoveTree.Coherent.exists_move hsound hx
    rw [hmoved op hop] at hn
    cases hn
  exact ⟨hsound, hnone _ rfl, hnone _ rfl⟩

/-- **The replication walk sees what the user sees.** In every state of a file system in which no
operation has moved the root or the trash, the walk comes to an end, and finds the chunks of the
regular files that the listings come to, and no chunk whose files are all cut off. -/
theorem reachable_matches_listing [UuidV5] [Sha256] [FastCdc] (h : fs.Reachable)
    (hmoved : ∀ op ∈ fs.tree.moves, op.child.isReserved = false) :
    fs.reachableLoopChecked (fs.tree.operationIds.length + 1) {NodeId.root} [NodeId.root] ∅
        = some fs.reachableChunkHashes ∧
      (∀ fuel, fs.tree.operationIds.length < fuel → ∀ x, x ∈ fs.reachableChunkHashes ↔
        ∃ e ∈ fs.listRecursively fuel NodeId.root, ∃ name size chunkRefs,
          e.2.2 = .regularFile name size chunkRefs ∧ x ∈ chunkRefs.map ChunkRef.hash) ∧
      ∀ x, (∀ n, fs.FileWith n x → fs.CutOff n) → x ∉ fs.reachableChunkHashes := by
  have hrooted := rooted_of_reachable h hmoved
  refine ⟨?_, fun fuel hfuel x => ?_, fun x hcut hx => ?_⟩
  · refine reachableLoopChecked_eq hrooted.sound walk_start ?_
    have hcard : (fs.moved \ {NodeId.root}).card ≤ fs.tree.operationIds.length :=
      (Finset.card_le_card Finset.sdiff_subset).trans fs.card_moved
    rw [List.length_singleton, Nat.add_comm]
    exact Nat.add_le_add_right hcard 1
  · rw [mem_reachableChunkHashes hrooted.sound]
    constructor
    · rintro ⟨n, -, ⟨-, p, m, hp, hn⟩, name, size, chunkRefs, hfile, hx⟩
      obtain ⟨q, hq⟩ := treeMetadata_eq_some.1 hfile
      cases hn.symm.trans hq
      exact ⟨_, (mem_listRecursively hrooted hfuel).2 ⟨p, hp, hn⟩, name, size, chunkRefs, rfl, hx⟩
    · rintro ⟨e, he, name, size, chunkRefs, hfile, hx⟩
      obtain ⟨p, hp, hn⟩ := of_mem_listRecursively hrooted .root he
      exact ⟨e.1, hrooted.ne_root hn, ⟨hrooted.ne_trash hn, p, _, hp, hn⟩, name, size, chunkRefs,
        treeMetadata_eq_some.2 ⟨p, hfile ▸ hn⟩, hx⟩
  · obtain ⟨n, -, hseen, hfile⟩ := (mem_reachableChunkHashes hrooted.sound x).1 hx
    exact hseen.not_cutOff hrooted (hcut n hfile)

end FileSystem

end Edfs

namespace Edfs.FileSystem

open Execution Reference

/-- The ids of the directory `d`, of the file `f` in it, and of the file `g` next to it. -/
def dirId : NodeId := ⟨UuidV5.newV5 Uuid.nil "d"⟩

def keptId : NodeId := ⟨UuidV5.newV5 dirId.uuid "f"⟩

def trashedId : NodeId := ⟨UuidV5.newV5 Uuid.nil "g"⟩

/-- Both files are written, and `g` is deleted. -/
def trashedEvents : List (Event ℕ) :=
  [(fun _ => 1, .mutate (.createDirectory NodeId.root "d")),
    (fun _ => 2, .mutate (.createFile dirId "f")), (fun _ => 3, .mutate (.writeFile keptId [1])),
    (fun _ => 4, .mutate (.createFile NodeId.root "g")),
    (fun _ => 5, .mutate (.writeFile trashedId [2])),
    (fun _ => 6, .mutate (.deleteFile NodeId.root "g"))]

def withTrashed : FileSystem ℕ := (run callStep trashedEvents (init 0 100)).getD (init 0 100)

theorem reachable_matches_listing_trashed :
    withTrashed.reachableLoopChecked 7 {NodeId.root} [NodeId.root] ∅
        = some withTrashed.reachableChunkHashes ∧
      ChunkHash.of [1] ∈ withTrashed.reachableChunkHashes ∧
      ChunkHash.of [2] ∉ withTrashed.reachableChunkHashes := by
  have hreachable : withTrashed.Reachable := ⟨0, 100, trashedEvents, rfl⟩
  obtain ⟨hloop, hlisted, hcut⟩ := reachable_matches_listing hreachable (by decide)
  refine ⟨hloop, (hlisted 7 (by decide) _).2 ?_, hcut _ fun n hn => ?_⟩
  · exact ⟨(keptId, "f", .regularFile "f" 1 [⟨ChunkHash.of [1], 1⟩]), by decide, _, _, _, rfl,
      by decide⟩
  · -- the file has moved, and only `g` was ever moved with the chunk
    obtain ⟨name, size, refs, hmeta, hchunk⟩ := hn
    obtain ⟨p, hp⟩ := treeMetadata_eq_some.1 hmeta
    obtain ⟨op, hop, rfl, hnode⟩ := hreachable.inv.sound.exists_move hp
    have hothers : ∀ op ∈ withTrashed.tree.moves, op.child ≠ trashedId →
        op.metadata ∈ [.directory "d", .regularFile "f" 0 [],
          .regularFile "f" 1 [⟨ChunkHash.of [1], 1⟩]] := by decide
    have htrashed : op.child = trashedId := by
      by_contra hne
      have hlist := hothers op hop hne
      rw [← (MoveTree.Node.mk.inj hnode).2] at hlist
      simp only [List.mem_cons, NodeMeta.regularFile.injEq, reduceCtorEq, List.not_mem_nil,
        false_or, or_false] at hlist
      rcases hlist with ⟨-, -, rfl⟩ | ⟨-, -, rfl⟩ <;> exact absurd hchunk (by decide)
    rw [htrashed]
    exact ⟨NodeId.trash, .single rfl, .inl rfl⟩

end Edfs.FileSystem
