import Edfs.Filesystem.Calls
import Edfs.Reference

/-!
# The visible namespace

The directories reachable from the root, what they list, and what creating an entry does to them.
The id of a created node is derived from its parent and name, so a create takes over the node
that has this id, wherever it is by then.

* `Live`, `Visible`, `NamesUnique`; `Rooted`, what every run of mutators keeps of the tree;
* `AddsExactly`, a create that adds one entry and disturbs no other;
* `Spare`, the derived id is free: no visible node has it, and nothing hangs under it;
* `create_addsExactly`: a successful create adds exactly its entry when its id is spare and the
  visible names are unique, and only when its id is spare.
-/

namespace Edfs

/-- The nodes under `d` have different names. -/
def NamesApart (t : MoveTree.Tree NodeId NodeMeta) (d : NodeId) : Prop :=
  ∀ n n' m m', t n = some ⟨d, m⟩ → t n' = some ⟨d, m'⟩ → m.name = m'.name → n = n'

/-- A node can be put where no other node has its name. -/
theorem NamesApart.update {t : MoveTree.Tree NodeId NodeMeta} {d : NodeId} (h : NamesApart t d)
    {n p : NodeId} {m : NodeMeta}
    (hp : d = p → ∀ n' m', t n' = some ⟨p, m'⟩ → m'.name = m.name → n' = n) :
    NamesApart (Function.update t n (some ⟨p, m⟩)) d := by
  intro x y mx my hx hy hname
  by_cases hxn : x = n <;> by_cases hyn : y = n
  · rw [hxn, hyn]
  · subst hxn
    rw [Function.update_self] at hx
    rw [Function.update_of_ne hyn] at hy
    cases hx
    exact (hp rfl y my hy hname.symm).symm
  · subst hyn
    rw [Function.update_self] at hy
    rw [Function.update_of_ne hxn] at hx
    cases hy
    exact hp rfl x mx hx hname
  · rw [Function.update_of_ne hxn] at hx
    rw [Function.update_of_ne hyn] at hy
    exact h x y mx my hx hy hname

namespace FileSystem

open Execution

variable {PeerId : Type} [CrdtTree PeerId]

/-- The directories reachable from the root through directories. -/
inductive Live (fs : FileSystem PeerId) : NodeId → Prop
  | root : Live fs NodeId.root
  | child {d p : NodeId} {name : String} (hp : Live fs p)
      (hd : fs.tree.find d = some ⟨p, .directory name⟩) : Live fs d

/-- The nodes that hang under a live directory. -/
def Visible (fs : FileSystem PeerId) (n : NodeId) : Prop :=
  ∃ p m, fs.Live p ∧ fs.tree.find n = some ⟨p, m⟩

/-- The children of a live directory have different names. -/
def NamesUnique (fs : FileSystem PeerId) : Prop :=
  ∀ d, fs.Live d → NamesApart fs.tree.find d

/-- The tree knows the directory: `children` does not fail on it. -/
def Known (fs : FileSystem PeerId) (d : NodeId) : Prop :=
  d.isReserved ∨ ∃ x, fs.tree.find d = some x

/-- A create that adds one entry to the namespace and leaves the others as they are. -/
structure AddsExactly (fs fs' : FileSystem PeerId) (parent : NodeId) (name : String)
    (entry : FileSystemEntry) : Prop where
  /-- What resolved before resolves to the same node, with the same metadata. -/
  resolves : ∀ d x n m, fs.Live d → fs.childId d x = .ok n → fs.metadata n = .ok m →
    fs'.childId d x = .ok n ∧ fs'.metadata n = .ok m
  /-- The parent lists one entry more, the other directories list the same. -/
  lists : ∀ d es, fs.Live d → fs.listDirectory d = .ok es →
    ∃ es', fs'.listDirectory d = .ok es' ∧
      es'.Perm (if d = parent then (entry.nodeId, name, entry.metadata) :: es else es)
  /-- The new name resolves to the returned node, which has the returned metadata. -/
  resolvesNew : fs'.childId parent name = .ok entry.nodeId ∧
    fs'.metadata entry.nodeId = .ok entry.metadata
  /-- A new directory lists as empty. -/
  listsNew : entry.metadata.isDirectory → fs'.listDirectory entry.nodeId = .ok []

/-- The id derived from a parent and a name is free: it is not that of a visible node and, for a
directory, no node hangs under it. -/
def Spare [UuidV5] (fs : FileSystem PeerId) (parent : NodeId) (name : String) (m : NodeMeta) :
    Prop :=
  ¬ fs.Visible ⟨UuidV5.newV5 parent.uuid name⟩ ∧
    (m.isDirectory → ∀ c m', fs.tree.find c ≠ some ⟨⟨UuidV5.newV5 parent.uuid name⟩, m'⟩)

/-- One of the three calls that create a node. -/
def IsCreate [UuidV5] (fs : FileSystem PeerId) (now : ℕ) (parent : NodeId) (name : String)
    (r : Mutation PeerId FileSystemEntry) : Prop :=
  r = fs.createDirectory now parent name ∨ r = fs.createFile now parent name ∨
    ∃ linkTarget, r = fs.createSymlink now parent name linkTarget

/-! ### Looking up -/

theorem known_of_live {fs : FileSystem PeerId} {d : NodeId} (h : fs.Live d) : fs.Known d := by
  cases h with
  | root => exact Or.inl rfl
  | child _ hd => exact Or.inr ⟨_, hd⟩

theorem Live.eq_root_or_visible {fs : FileSystem PeerId} {d : NodeId} (hd : fs.Live d) :
    d = NodeId.root ∨ fs.Visible d := by
  cases hd with
  | root => exact Or.inl rfl
  | child hp hd => exact Or.inr ⟨_, _, hp, hd⟩

theorem children_of_known {fs : FileSystem PeerId} {d : NodeId} (h : fs.Known d) :
    fs.tree.children d = .ok (CrdtTree.children fs.tree.tree d) := by
  refine if_neg fun hd => ?_
  rcases h with h | ⟨x, hx⟩
  · simp [h] at hd
  · simp [hx] at hd

theorem listDirectory_of_known {fs : FileSystem PeerId} {d : NodeId} {name : String}
    (hd : fs.Known d) (hm : fs.metadata d = .ok (.directory name)) :
    fs.listDirectory d = .ok (fs.entries (CrdtTree.children fs.tree.tree d)) := by
  unfold listDirectory
  rw [hm, children_of_known hd]

theorem of_mem_listDirectory {fs : FileSystem PeerId} {d c : NodeId} {x : String}
    {m : NodeMeta} {es : List (NodeId × String × NodeMeta)} (hes : fs.listDirectory d = .ok es)
    (hc : (c, x, m) ∈ es) : c ∈ CrdtTree.children fs.tree.tree d ∧ fs.metadata c = .ok m := by
  unfold listDirectory at hes
  cases hm : fs.metadata d with
  | error e => simp [hm] at hes
  | ok md =>
    cases md with
    | regularFile _ _ _ => simp [hm] at hes
    | symlink _ _ => simp [hm] at hes
    | directory name =>
      cases hch : fs.tree.children d with
      | error e => simp [hm, hch] at hes
      | ok children =>
        simp only [hm, hch] at hes
        cases hes
        obtain ⟨c', hc', hcc'⟩ := List.mem_filterMap.1 hc
        unfold NodeTree.children at hch
        split_ifs at hch
        cases hch
        cases hmc : fs.metadata c' with
        | error e => simp [hmc] at hcc'
        | ok m' =>
          simp only [hmc, Option.some.injEq, Prod.mk.injEq] at hcc'
          obtain ⟨rfl, -, rfl⟩ := hcc'
          exact ⟨hc', hmc⟩

theorem treeMetadata_eq_some {t : NodeTree PeerId} {n : NodeId} {m : NodeMeta} :
    t.metadata n = some m ↔ ∃ p, t.find n = some ⟨p, m⟩ := by
  unfold NodeTree.metadata
  rcases t.find n with _ | ⟨p, m'⟩ <;> simp

theorem metadata_of_find {fs : FileSystem PeerId} {n p : NodeId} {m : NodeMeta}
    (hf : fs.tree.find n = some ⟨p, m⟩) (hn : n ≠ NodeId.root) (hp : p ≠ NodeId.trash) :
    fs.metadata n = .ok m := by
  have htrashed : fs.tree.isTrashed n = false := by
    simp [NodeTree.isTrashed, NodeTree.parentId, hf, hp]
  rw [FileSystem.metadata, if_neg hn, htrashed, treeMetadata_eq_some.2 ⟨p, hf⟩]
  rfl

/-- A node that has metadata is not in the trash. -/
theorem ne_trash_of_metadata {fs : FileSystem PeerId} {n parent : NodeId} {m m' : NodeMeta}
    (hm : fs.metadata n = .ok m) (hn : n ≠ NodeId.root)
    (hf : fs.tree.find n = some ⟨parent, m'⟩) : parent ≠ NodeId.trash := by
  rintro rfl
  have htrashed : fs.tree.isTrashed n = true := by
    simp [NodeTree.isTrashed, NodeTree.parentId, hf]
  rw [FileSystem.metadata, if_neg hn, htrashed] at hm
  cases hm

/-- The three calls are `create_node` with metadata of the given name. -/
theorem IsCreate.eq [UuidV5] {fs : FileSystem PeerId} {now : ℕ} {parent : NodeId} {name : String}
    {r : Mutation PeerId FileSystemEntry} (h : fs.IsCreate now parent name r) :
    ∃ m, m.name = name ∧ r = fs.createNode now parent name m := by
  rcases h with rfl | rfl | ⟨linkTarget, rfl⟩
  · exact ⟨.directory name, rfl, rfl⟩
  · exact ⟨.regularFile name 0 [], rfl, rfl⟩
  · exact ⟨.symlink name linkTarget, rfl, rfl⟩

/-! ### Rooted trees -/

variable [LinearOrder PeerId]

/-- The tree is built by the documented machine, and the two reserved ids are not nodes of it. -/
structure Rooted (fs : FileSystem PeerId) : Prop where
  sound : fs.tree.Sound
  root : fs.tree.find NodeId.root = none
  trash : fs.tree.find NodeId.trash = none

/-- The nodes of the tree are not the root. -/
theorem Rooted.ne_root {fs : FileSystem PeerId} (h : fs.Rooted) {n : NodeId}
    {x : MoveTree.Node NodeId NodeMeta} (hn : fs.tree.find n = some x) : n ≠ NodeId.root := by
  rintro rfl
  cases h.root.symm.trans hn

/-- Nor are they the trash. -/
theorem Rooted.ne_trash {fs : FileSystem PeerId} (h : fs.Rooted) {n : NodeId}
    {x : MoveTree.Node NodeId NodeMeta} (hn : fs.tree.find n = some x) : n ≠ NodeId.trash := by
  rintro rfl
  cases h.trash.symm.trans hn

theorem Live.ne_trash {fs : FileSystem PeerId} (h : fs.Rooted) {d : NodeId} (hd : fs.Live d) :
    d ≠ NodeId.trash := by
  cases hd with
  | root => exact NodeId.root_ne_trash
  | child _ hd => exact h.ne_trash hd

theorem Live.metadata {fs : FileSystem PeerId} (h : fs.Rooted) {d : NodeId} (hd : fs.Live d) :
    ∃ name, fs.metadata d = .ok (.directory name) := by
  by_cases hroot : d = NodeId.root
  · exact ⟨"", by rw [hroot, metadata_root]⟩
  · cases hd with
    | root => exact absurd rfl hroot
    | child hp hd => exact ⟨_, metadata_of_find hd hroot (hp.ne_trash h)⟩

theorem metadata_of_child {fs : FileSystem PeerId} (h : fs.Rooted) {d n : NodeId} {m : NodeMeta}
    (hd : d ≠ NodeId.trash) (hn : fs.tree.find n = some ⟨d, m⟩) : fs.metadata n = .ok m :=
  metadata_of_find hn (h.ne_root hn) hd

/-- Everything above a live directory is visible, up to the root. -/
theorem Live.visible_of_ancestor {fs : FileSystem PeerId} (h : fs.Rooted) {d a : NodeId}
    (hd : fs.Live d) (ha : fs.tree.state.tree.Ancestor d a) :
    a = NodeId.root ∨ fs.Visible a := by
  induction hd with
  | root => exact absurd ha (MoveTree.Tree.not_ancestor_of_none h.root a)
  | @child d p name hp hd ih =>
    rcases MoveTree.Tree.ancestor_cases hd ha with rfl | hrest
    · exact hp.eq_root_or_visible
    · exact ih hrest

variable [LawfulCrdtTree PeerId]

theorem find_of_childId {fs : FileSystem PeerId} {d n : NodeId} {x : String}
    (h : fs.childId d x = .ok n) : ∃ m, fs.tree.find n = some ⟨d, m⟩ ∧ m.name = x := by
  unfold childId at h
  cases hch : fs.tree.children d with
  | error e => simp [hch] at h
  | ok children =>
    rw [hch] at h
    dsimp only at h
    cases hfind : children.find? fun c => (fs.tree.metadata c).any fun m => m.name = x with
    | none => simp [hfind] at h
    | some c =>
      rw [hfind] at h
      cases h
      have hmem : n ∈ CrdtTree.children fs.tree.tree d := by
        unfold NodeTree.children at hch
        split_ifs at hch
        cases hch
        exact List.mem_of_find?_eq_some hfind
      obtain ⟨m, hm⟩ := NodeTree.mem_crdtChildren.1 hmem
      have hname := List.find?_some hfind
      rw [treeMetadata_eq_some.2 ⟨d, hm⟩] at hname
      exact ⟨m, hm, by simpa using hname⟩

/-- A child with the name is found, though maybe not this one. -/
theorem childId_of_find {fs : FileSystem PeerId} {d n : NodeId} {m : NodeMeta}
    (hd : fs.Known d) (hn : fs.tree.find n = some ⟨d, m⟩) : ∃ c, fs.childId d m.name = .ok c := by
  unfold childId
  rw [children_of_known hd]
  dsimp only
  cases hfind : (CrdtTree.children fs.tree.tree d).find? fun c =>
      (fs.tree.metadata c).any fun m' => m'.name = m.name with
  | some c => exact ⟨c, rfl⟩
  | none =>
    have := List.find?_eq_none.1 hfind n (NodeTree.mem_crdtChildren.2 ⟨m, hn⟩)
    rw [treeMetadata_eq_some.2 ⟨d, hn⟩] at this
    simp at this

/-- With one child of the name, that is the one found. -/
theorem childId_eq {fs : FileSystem PeerId} {d n : NodeId} {m : NodeMeta} (hd : fs.Known d)
    (hn : fs.tree.find n = some ⟨d, m⟩)
    (huniq : ∀ n' m', fs.tree.find n' = some ⟨d, m'⟩ → m'.name = m.name → n' = n) :
    fs.childId d m.name = .ok n := by
  obtain ⟨c, hc⟩ := childId_of_find hd hn
  obtain ⟨m', hm', hname⟩ := find_of_childId hc
  rw [hc, huniq c m' hm' hname]

theorem mem_entries {fs : FileSystem PeerId} (h : fs.Rooted) {d n : NodeId} {m : NodeMeta}
    (hd : d ≠ NodeId.trash) (hn : fs.tree.find n = some ⟨d, m⟩) :
    (n, m.name, m) ∈ fs.entries (CrdtTree.children fs.tree.tree d) := by
  refine List.mem_filterMap.2 ⟨n, NodeTree.mem_crdtChildren.2 ⟨m, hn⟩, ?_⟩
  rw [metadata_of_child h hd hn]

/-! ### Creating an entry -/

/-- An issued move that is newer than the log, done on the tree. -/
theorem find_issue {t : NodeTree PeerId} {now : ℕ} (h : t.Newest now) (n p : NodeId)
    (m : NodeMeta) :
    ((t.issue now n p m).2.find = t.find ∧ (n = p ∨ t.state.tree.Ancestor p n)) ∨
      ((t.issue now n p m).2.find = Function.update t.find n (some ⟨p, m⟩) ∧
        ¬ (n = p ∨ t.state.tree.Ancestor p n)) := by
  rw [NodeTree.find_issue_newest h]
  by_cases hb : (t.issue now n p m).1.Blocked t.find
  · exact Or.inl ⟨MoveTree.doOp_blocked hb, hb⟩
  · exact Or.inr ⟨MoveTree.doOp_free hb, hb⟩

theorem find_issue_of_ne {t : NodeTree PeerId} {now : ℕ} (h : t.Newest now) {n x : NodeId}
    (p : NodeId) (m : NodeMeta) (hx : x ≠ n) : (t.issue now n p m).2.find x = t.find x := by
  rcases find_issue h n p m with ⟨hf, -⟩ | ⟨hf, -⟩
  · rw [hf]
  · rw [hf, Function.update_of_ne hx]

section Create

variable {fs fs' : FileSystem PeerId} {now : ℕ} {parent n : NodeId} {m : NodeMeta}

/-- The move of a node that is not visible under a live directory is not blocked. -/
theorem find_create (h : fs.Rooted) (hnow : fs.tree.Newest now) (hparent : fs.Live parent)
    (hn : n ≠ NodeId.root) (hvis : ¬ fs.Visible n) :
    (fs.tree.issue now n parent m).2.find
      = Function.update fs.tree.find n (some ⟨parent, m⟩) := by
  rcases find_issue hnow n parent m with ⟨-, rfl | hanc⟩ | ⟨hf, -⟩
  · exact absurd (hparent.eq_root_or_visible.resolve_left hn) hvis
  · exact absurd ((hparent.visible_of_ancestor h hanc).resolve_left hn) hvis
  · exact hf

variable (hfs' : fs'.tree.find = Function.update fs.tree.find n (some ⟨parent, m⟩))

include hfs'

omit [LinearOrder PeerId] [LawfulCrdtTree PeerId] in
/-- The nodes under a live directory are those that were there, and the created one. -/
theorem find_under_live (hvis : ¬ fs.Visible n) {d : NodeId} (hd : fs.Live d) (x : NodeId)
    (mx : NodeMeta) :
    fs'.tree.find x = some ⟨d, mx⟩ ↔
      (x = n ∧ d = parent ∧ mx = m) ∨ fs.tree.find x = some ⟨d, mx⟩ := by
  rw [hfs']
  by_cases hx : x = n
  · subst hx
    have hold : fs.tree.find x ≠ some ⟨d, mx⟩ := fun hf => hvis ⟨d, mx, hd, hf⟩
    simp [hold, eq_comm]
  · simp [hx]

omit [LinearOrder PeerId] [LawfulCrdtTree PeerId] in
theorem known_create (hn : n ≠ NodeId.root) (hvis : ¬ fs.Visible n) {d : NodeId}
    (hd : fs.Live d) : fs'.Known d := by
  have hdn : d ≠ n := by
    rintro rfl
    exact hvis (hd.eq_root_or_visible.resolve_left hn)
  rcases known_of_live hd with hk | ⟨x, hx⟩
  · exact Or.inl hk
  · exact Or.inr ⟨x, by rw [hfs', Function.update_of_ne hdn, hx]⟩

/-- The children of a live directory after a create. -/
theorem children_create (hvis : ¬ fs.Visible n) {d : NodeId} (hd : fs.Live d) :
    (CrdtTree.children fs'.tree.tree d).Perm
      (if d = parent then n :: CrdtTree.children fs.tree.tree d
        else CrdtTree.children fs.tree.tree d) := by
  have hmem : ∀ x, x ∈ CrdtTree.children fs'.tree.tree d ↔
      (x = n ∧ d = parent) ∨ x ∈ CrdtTree.children fs.tree.tree d := fun x => by
    rw [NodeTree.mem_crdtChildren, NodeTree.mem_crdtChildren]
    simp only [find_under_live hfs' hvis hd]
    constructor
    · rintro ⟨mx, ⟨h1, h2, -⟩ | hf⟩
      · exact Or.inl ⟨h1, h2⟩
      · exact Or.inr ⟨mx, hf⟩
    · rintro (⟨h1, h2⟩ | ⟨mx, hf⟩)
      · exact ⟨m, Or.inl ⟨h1, h2, rfl⟩⟩
      · exact ⟨mx, Or.inr hf⟩
  have hnot : n ∉ CrdtTree.children fs.tree.tree d := fun hn => by
    obtain ⟨mx, hf⟩ := NodeTree.mem_crdtChildren.1 hn
    exact hvis ⟨d, mx, hd, hf⟩
  have hnd := LawfulCrdtTree.children_nodup fs.tree.tree d
  split_ifs with hdp
  · refine (List.perm_ext_iff_of_nodup (LawfulCrdtTree.children_nodup _ _)
      (List.nodup_cons.2 ⟨hnot, hnd⟩)).2 fun x => ?_
    rw [hmem, List.mem_cons, and_iff_left hdp]
  · refine (List.perm_ext_iff_of_nodup (LawfulCrdtTree.children_nodup _ _) hnd).2 fun x => ?_
    rw [hmem, or_iff_right fun h => hdp h.2]

/-- What a live directory lists after a create. -/
theorem lists_create (h : fs.Rooted) (h' : fs'.Rooted) (hn : n ≠ NodeId.root)
    (hvis : ¬ fs.Visible n) {d : NodeId} {es : List (NodeId × String × NodeMeta)}
    (hd : fs.Live d) (hes : fs.listDirectory d = .ok es) :
    ∃ es', fs'.listDirectory d = .ok es' ∧
      es'.Perm (if d = parent then (n, m.name, m) :: es else es) := by
  have htrash := hd.ne_trash h
  obtain ⟨name, hmd⟩ := hd.metadata h
  rw [listDirectory_of_known (known_of_live hd) hmd] at hes
  cases hes
  have hmd' : ∃ name, fs'.metadata d = .ok (.directory name) := by
    by_cases hroot : d = NodeId.root
    · exact ⟨"", by rw [hroot, metadata_root]⟩
    · cases hd with
      | root => exact absurd rfl hroot
      | @child d p name hp hd =>
        have hdn : d ≠ n := by
          rintro rfl
          exact hvis ⟨p, _, hp, hd⟩
        exact ⟨name, metadata_of_child h' (hp.ne_trash h) (by rw [hfs',
          Function.update_of_ne hdn, hd])⟩
  obtain ⟨name', hmd'⟩ := hmd'
  refine ⟨_, listDirectory_of_known (known_create hfs' hn hvis hd) hmd', ?_⟩
  -- the old children keep their metadata
  have hold : fs'.entries (CrdtTree.children fs.tree.tree d)
      = fs.entries (CrdtTree.children fs.tree.tree d) := by
    refine List.filterMap_congr fun x hx => ?_
    obtain ⟨mx, hf⟩ := NodeTree.mem_crdtChildren.1 hx
    have hf' := (find_under_live hfs' hvis hd x mx).2 (Or.inr hf)
    rw [metadata_of_child h' htrash hf', metadata_of_child h htrash hf]
  have hperm : (fs'.entries (CrdtTree.children fs'.tree.tree d)).Perm (fs'.entries _) :=
    (children_create hfs' hvis hd).filterMap _
  refine hperm.trans (.of_eq ?_)
  split_ifs with hdp
  · have hf' := (find_under_live hfs' hvis hd n m).2 (Or.inl ⟨rfl, hdp, rfl⟩)
    rw [entries, List.filterMap_cons, metadata_of_child h' htrash hf']
    exact congrArg _ hold
  · exact hold

/-- With unique names, creating a node that is not visible adds exactly its entry. -/
theorem addsExactly_create (h : fs.Rooted) (h' : fs'.Rooted) (huniq : fs.NamesUnique)
    (hparent : fs.Live parent) (hfree : ∀ c, fs.childId parent m.name ≠ .ok c)
    (hn : n ≠ NodeId.root) (hvis : ¬ fs.Visible n)
    (hempty : m.isDirectory → ∀ c m', fs.tree.find c ≠ some ⟨n, m'⟩) :
    AddsExactly fs fs' parent m.name ⟨n, m⟩ := by
  have hnew : fs'.tree.find n = some ⟨parent, m⟩ := by rw [hfs', Function.update_self]
  refine ⟨fun d x c mc hd hc hmc => ?_, fun d es => lists_create hfs' h h' hn hvis, ⟨?_, ?_⟩, ?_⟩
  · obtain ⟨mc', hf, hname⟩ := find_of_childId hc
    have hf' := (find_under_live hfs' hvis hd c mc').2 (Or.inr hf)
    cases (metadata_of_child h (hd.ne_trash h) hf).symm.trans hmc
    refine ⟨?_, metadata_of_child h' (hd.ne_trash h) hf'⟩
    subst hname
    refine childId_eq (known_create hfs' hn hvis hd) hf' fun c' m' hc' hname => ?_
    rcases (find_under_live hfs' hvis hd c' m').1 hc' with ⟨-, rfl, rfl⟩ | hc'
    · exact absurd (hname ▸ hc) (hfree c)
    · exact huniq d hd c' c m' mc hc' hf hname
  · refine childId_eq (known_create hfs' hn hvis hparent) hnew fun c' m' hc' hname => ?_
    rcases (find_under_live hfs' hvis hparent c' m').1 hc' with ⟨rfl, -, -⟩ | hc'
    · rfl
    · obtain ⟨c, hc⟩ := childId_of_find (known_of_live hparent) hc'
      exact absurd (hname ▸ hc) (hfree c)
  · exact metadata_of_child h' (hparent.ne_trash h) hnew
  · intro hdir
    obtain ⟨name, rfl⟩ := NodeMeta.exists_of_isDirectory hdir
    have hchildren : CrdtTree.children fs'.tree.tree n = [] := by
      refine List.eq_nil_iff_forall_not_mem.2 fun c hc => ?_
      obtain ⟨mc, hf⟩ := NodeTree.mem_crdtChildren.1 hc
      have hcn : c ≠ n := by
        rintro rfl
        cases hnew.symm.trans hf
        exact hvis (hparent.eq_root_or_visible.resolve_left hn)
      rw [hfs', Function.update_of_ne hcn] at hf
      exact hempty rfl c mc hf
    rw [listDirectory_of_known (Or.inr ⟨_, hnew⟩)
      (metadata_of_child h' (hparent.ne_trash h) hnew), hchildren]
    rfl

end Create

/-- A create that adds exactly its entry has a spare id. -/
theorem spare_of_addsExactly [UuidV5] [LawfulUuidV5] {fs fs' : FileSystem PeerId}
    {parent : NodeId} {m : NodeMeta} {now : ℕ} (h : fs.Rooted) (h' : fs'.Rooted)
    (hnow : fs.tree.Newest now)
    (hparent : fs.Live parent) (hfree : ∀ c, fs.childId parent m.name ≠ .ok c)
    (hfs' : fs'.tree = (fs.tree.issue now ⟨UuidV5.newV5 parent.uuid m.name⟩ parent m).2)
    (hadds : AddsExactly fs fs' parent m.name ⟨⟨UuidV5.newV5 parent.uuid m.name⟩, m⟩) :
    fs.Spare parent m.name m := by
  set n : NodeId := ⟨UuidV5.newV5 parent.uuid m.name⟩ with hn
  have hroot : n ≠ NodeId.root := fun hr => LawfulUuidV5.ne_nil _ _ (NodeId.mk.inj hr)
  have htrash := hparent.ne_trash h
  -- a child of the parent with this name would have been found
  have hfree' : ∀ x mx, fs.tree.find x = some ⟨parent, mx⟩ → mx.name ≠ m.name := by
    intro x mx hf hname
    obtain ⟨c, hc⟩ := childId_of_find (known_of_live hparent) hf
    exact hfree c (hname ▸ hc)
  have hnew : fs'.tree.find n = some ⟨parent, m⟩ := by
    obtain ⟨mx, hf, hname⟩ := find_of_childId hadds.resolvesNew.1
    have hm := metadata_of_child h' htrash hf
    cases hm.symm.trans hadds.resolvesNew.2
    exact hf
  refine ⟨?_, fun hdir c mc hc => ?_⟩
  · rintro ⟨d, m₀, hd, hf⟩
    -- the directory listed the node under its old name
    obtain ⟨name, hmd⟩ := hd.metadata h
    obtain ⟨es', hes', hperm⟩ := hadds.lists d _ hd (listDirectory_of_known (known_of_live hd) hmd)
    have hmem : (n, m₀.name, m₀) ∈ es' := by
      refine hperm.symm.subset ?_
      have := mem_entries h (hd.ne_trash h) hf
      split_ifs
      · exact List.mem_cons_of_mem _ this
      · exact this
    obtain ⟨hchild, hm₀⟩ := of_mem_listDirectory hes' hmem
    obtain ⟨mx, hf'⟩ := NodeTree.mem_crdtChildren.1 hchild
    -- so it stays there, under the name that was free
    cases hnew.symm.trans hf'
    cases hm₀.symm.trans hadds.resolvesNew.2
    exact hfree' n _ hf rfl
  · have hcn : c ≠ n := by
      rintro rfl
      exact h.sound.acyclic n (.single ((NodeTree.edge_iff _ _ _).2 ⟨mc, hc⟩))
    have hc' : fs'.tree.find c = some ⟨n, mc⟩ := by
      rw [hfs', find_issue_of_ne hnow parent m hcn, hc]
    have hntrash : n ≠ NodeId.trash := h'.ne_trash hnew
    obtain ⟨name, rfl⟩ := NodeMeta.exists_of_isDirectory hdir
    have hlist := listDirectory_of_known (Or.inr ⟨_, hnew⟩) (metadata_of_child h' htrash hnew)
    have hmem := mem_entries h' hntrash hc'
    rw [Except.ok.inj (hlist.symm.trans (hadds.listsNew hdir))] at hmem
    exact List.not_mem_nil hmem

/-! ### Runs -/

theorem rooted_new (p : PeerId) (storage : ChunkStorage) :
    (FileSystem.new (NodeTree.new p) storage).Rooted := by
  have hfind : (NodeTree.new p).find = fun _ => none := by
    rw [NodeTree.find_eq, NodeTree.state_new]
    rfl
  exact ⟨NodeTree.sound_new p, congrFun hfind _, congrFun hfind _⟩

omit [LinearOrder PeerId] [LawfulCrdtTree PeerId] in
/-- No call issues a move of a reserved id. -/
theorem Issues.not_reserved [UuidV5] [LawfulUuidV5] {fs : FileSystem PeerId}
    (hroot : fs.tree.find NodeId.root = none) (htrash : fs.tree.find NodeId.trash = none)
    {target : Option NodeId} {n p : NodeId} {m : NodeMeta} (h : fs.Issues target n p m) :
    n ≠ NodeId.root ∧ n ≠ NodeId.trash := by
  -- a node that has metadata is a node of the tree
  have of_metadata : fs.tree.metadata n ≠ none → n ≠ NodeId.root ∧ n ≠ NodeId.trash := by
    intro hm
    constructor
    · rintro rfl
      exact hm (by simp [NodeTree.metadata, hroot])
    · rintro rfl
      exact hm (by simp [NodeTree.metadata, htrash])
  cases h with
  | create hfree =>
    exact ⟨fun h => LawfulUuidV5.ne_nil _ _ (NodeId.mk.inj h),
      fun h => LawfulUuidV5.ne_max _ _ (NodeId.mk.inj h)⟩
  | delete hm _ => exact of_metadata (by rw [hm]; simp)
  | rename _ hn _ => exact of_metadata hn
  | replace hm _ => exact of_metadata (by rw [(exists_parent_of_file hm).1]; simp)

/-- Names are unique in every directory but the trash, where a deleted node keeps its name. -/
def NamesDiffer (fs : FileSystem PeerId) : Prop :=
  ∀ d, d ≠ NodeId.trash → NamesApart fs.tree.find d

omit [LinearOrder PeerId] [LawfulCrdtTree PeerId] in
theorem namesDiffer_update {fs fs' : FileSystem PeerId} {n p : NodeId} {m : NodeMeta}
    (h : fs.NamesDiffer) (hf : fs'.tree.find = Function.update fs.tree.find n (some ⟨p, m⟩))
    (hp : p ≠ NodeId.trash → ∀ n' m', fs.tree.find n' = some ⟨p, m'⟩ → m'.name = m.name → n' = n) :
    fs'.NamesDiffer := by
  intro d hd
  rw [hf]
  refine (h d hd).update ?_
  rintro rfl
  exact hp hd

variable [UuidV5]

/-- A call puts a node in a known directory beside another of its name only if the node has that
name there already. -/
theorem Issues.stays {fs : FileSystem PeerId} {target : Option NodeId}
    {n p : NodeId} {m : NodeMeta} (hi : fs.Issues target n p m)
    (hknown : target = some p → fs.Known p) (hp : p ≠ NodeId.trash) {n' : NodeId} {m' : NodeMeta}
    (hn' : fs.tree.find n' = some ⟨p, m'⟩) (hname : m'.name = m.name) :
    ∃ m₀, fs.tree.find n = some ⟨p, m₀⟩ ∧ m₀.name = m.name := by
  cases hi with
  | create hfree =>
    obtain ⟨c, hc⟩ := childId_of_find (hknown rfl) hn'
    exact absurd (hname ▸ hc) (hfree c)
  | delete _ _ => exact absurd rfl hp
  | rename hm hn hfree =>
    obtain ⟨c, hc⟩ := childId_of_find (hknown rfl) hn'
    rw [hname] at hc
    cases hfree c (by rwa [renamed_name] at hc)
    exact find_of_childId hc
  | @replace _ _ name size _ refs _ hm hparent =>
    obtain ⟨q, hq⟩ := treeMetadata_eq_some.1 (exists_parent_of_file hm).1
    have hqp : q = p := by simpa [NodeTree.parentId, hq] using hparent
    exact ⟨.regularFile name size refs, hqp ▸ hq, rfl⟩

/-- A node a call puts in a known directory meets no other of its name there. -/
theorem Issues.name_free {fs : FileSystem PeerId} (h : fs.NamesDiffer) {target : Option NodeId}
    (hknown : ∀ d, target = some d → fs.Known d) {n p : NodeId} {m : NodeMeta}
    (hi : fs.Issues target n p m) (hp : p ≠ NodeId.trash) {n' : NodeId} {m' : NodeMeta}
    (hn' : fs.tree.find n' = some ⟨p, m'⟩) (hname : m'.name = m.name) : n' = n := by
  obtain ⟨m₀, hm₀, hname₀⟩ := hi.stays (hknown p) hp hn' hname
  exact h p hp n' n m' m₀ hn' hm₀ (hname.trans hname₀.symm)

variable [Sha256] [FastCdc]

/-- A step of a local run: a wall-clock reading and a call. -/
def localStep (l : ℕ × Mutator) (fs : FileSystem PeerId) : Option (FileSystem PeerId) :=
  some (fs.mutate l.1 l.2).2

omit [LinearOrder PeerId] [LawfulCrdtTree PeerId] in
/-- The state after a call: as before, or with one move issued. -/
theorem localStep_cases {l : ℕ × Mutator} {fs fs' : FileSystem PeerId}
    (h : localStep l fs = some fs') :
    fs'.tree = fs.tree ∨
      ∃ n p m, fs.Issues (target l.2) n p m ∧ fs'.tree = (fs.tree.issue l.1 n p m).2 := by
  cases h
  rcases mutate_cases fs l.1 l.2 with ⟨e, he⟩ | ⟨ops, fs', ho, hd⟩
  · exact Or.inl (by rw [he])
  · rw [ho]
    rcases hd.tree with ⟨-, ht⟩ | ⟨n, p, m, hi, -, ht⟩
    · exact Or.inl ht
    · exact Or.inr ⟨n, p, m, hi, ht⟩

/-- The call's timestamp, if it issues one, is newer than the log. -/
def StepNewest (l : ℕ × Mutator) (fs : FileSystem PeerId) : Prop := fs.tree.Newest l.1

instance (l : ℕ × Mutator) (fs : FileSystem PeerId) : Decidable (StepNewest l fs) :=
  inferInstanceAs (Decidable (fs.tree.Newest l.1))

/-- The call puts a node only where the tree knows the directory. -/
def StepKnown (l : ℕ × Mutator) (fs : FileSystem PeerId) : Prop :=
  ∀ d, target l.2 = some d → fs.Known d

theorem namesDiffer_step {l : ℕ × Mutator} {fs fs' : FileSystem PeerId} (hnew : StepNewest l fs)
    (hknown : StepKnown l fs) (h : fs.NamesDiffer) (hstep : localStep l fs = some fs') :
    fs'.NamesDiffer := by
  rcases localStep_cases hstep with ht | ⟨n, p, m, hi, ht⟩
  · unfold NamesDiffer
    rw [ht]
    exact h
  · rcases find_issue hnew n p m with ⟨hf, -⟩ | ⟨hf, -⟩
    · unfold NamesDiffer
      rw [ht, hf]
      exact h
    · exact namesDiffer_update h (by rw [ht, hf]) fun hp n' m' hn' hname =>
        hi.name_free h hknown hp hn' hname

theorem namesDiffer_run {p : PeerId} {maxPinnedBytes : ℕ} {calls : List (ℕ × Mutator)}
    {fs : FileSystem PeerId} (hrun : run localStep calls (init p maxPinnedBytes) = some fs)
    (hnew : Meets localStep StepNewest calls (init p maxPinnedBytes))
    (hknown : Meets localStep StepKnown calls (init p maxPinnedBytes)) : fs.NamesDiffer := by
  refine run_invariant_of_meets (C := fun l fs => StepNewest l fs ∧ StepKnown l fs)
    (fun _ _ _ hC => namesDiffer_step hC.1 hC.2) ?_ (hnew.and hknown) hrun
  intro d _ n n' m m' hn
  have hfind : (init p maxPinnedBytes).tree.find = fun _ => none := by
    rw [NodeTree.find_eq]
    exact congrArg MoveTree.State.tree (NodeTree.state_new p)
  rw [hfind] at hn
  cases hn

variable [LawfulUuidV5]

theorem rooted_step {l : ℕ × Mutator} {fs fs' : FileSystem PeerId} (hnew : StepNewest l fs)
    (h : fs.Rooted) (hstep : localStep l fs = some fs') : fs'.Rooted := by
  rcases localStep_cases hstep with ht | ⟨n, p, m, hi, ht⟩
  · exact ⟨by rw [ht]; exact h.sound, by rw [ht]; exact h.root, by rw [ht]; exact h.trash⟩
  · obtain ⟨hroot, htrash⟩ := hi.not_reserved h.root h.trash
    refine ⟨by rw [ht]; exact h.sound.issue _ _ _ _, ?_, ?_⟩
    · rw [ht, find_issue_of_ne hnew p m hroot.symm, h.root]
    · rw [ht, find_issue_of_ne hnew p m htrash.symm, h.trash]

theorem rooted_run {p : PeerId} {maxPinnedBytes : ℕ} {calls : List (ℕ × Mutator)}
    {fs : FileSystem PeerId} (hrun : run localStep calls (init p maxPinnedBytes) = some fs)
    (hnew : Meets localStep StepNewest calls (init p maxPinnedBytes)) : fs.Rooted :=
  run_invariant_of_meets (fun _ _ _ => rooted_step) (rooted_new p _) hnew hrun

/-! ### The namespace of a run -/

/-- **What a successful create does to the namespace**, after any local run in which every issued
timestamp is newer than the log. It adds exactly its entry only if its derived id is spare; and it
does so if its id is spare and the visible names are unique, as they are when no call of the run
has put a node in a directory that the tree did not know. -/
theorem create_addsExactly {p : PeerId} {maxPinnedBytes : ℕ} {calls : List (ℕ × Mutator)}
    {fs fs' : FileSystem PeerId} (hrun : run localStep calls (init p maxPinnedBytes) = some fs)
    (hnew : Meets localStep StepNewest calls (init p maxPinnedBytes))
    {now : ℕ} (hnow : fs.tree.Newest now) {parent : NodeId} (hparent : fs.Live parent)
    {name : String} {r : Mutation PeerId FileSystemEntry} (hr : fs.IsCreate now parent name r)
    {entry : FileSystemEntry} {ops : List (NodeOperation PeerId)}
    (hok : r = (.ok ⟨entry, ops⟩, fs')) :
    (AddsExactly fs fs' parent name entry → fs.Spare parent name entry.metadata) ∧
      (fs.NamesUnique → fs.Spare parent name entry.metadata →
        AddsExactly fs fs' parent name entry) ∧
      (Meets localStep StepKnown calls (init p maxPinnedBytes) → fs.NamesUnique) := by
  obtain ⟨m, rfl, rfl⟩ := hr.eq
  have h := rooted_run hrun hnew
  rcases createNode_cases fs now parent m.name m with he | ⟨hfree, he⟩
  · cases he.symm.trans hok
  cases he.symm.trans hok
  set n : NodeId := ⟨UuidV5.newV5 parent.uuid m.name⟩ with hn
  obtain ⟨hroot, htrash⟩ := (Issues.create hfree).not_reserved h.root h.trash
  have h' : Rooted { fs with tree := (fs.tree.issue now n parent m).2 } :=
    ⟨h.sound.issue _ _ _ _, (find_issue_of_ne hnow parent m hroot.symm).trans h.root,
      (find_issue_of_ne hnow parent m htrash.symm).trans h.trash⟩
  refine ⟨spare_of_addsExactly h h' hnow hparent hfree rfl, fun huniq hspare => ?_,
    fun hknown => ?_⟩
  · exact addsExactly_create (find_create h hnow hparent hroot hspare.1) h h' huniq hparent hfree
      hroot hspare.1 hspare.2
  · intro d hd
    exact namesDiffer_run hrun hnew hknown d (hd.ne_trash h)

end FileSystem

end Edfs

/-! ### A create that takes over a renamed file -/

namespace Edfs.FileSystem

open Execution Reference

/-- A file is created and renamed. -/
def renameCalls : List (ℕ × Mutator) :=
  [(1, .createFile NodeId.root "a"), (2, .rename NodeId.root "a" NodeId.root "b")]

/-- The file system after that. -/
def afterRename : FileSystem ℕ :=
  (((init (0 : ℕ) 0).mutate 1 (.createFile NodeId.root "a")).2.mutate 2
    (.rename NodeId.root "a" NodeId.root "b")).2

theorem create_addsExactly_after_rename :
    ∃ entry ops fs', afterRename.createFile 3 NodeId.root "c" = (.ok ⟨entry, ops⟩, fs') ∧
      (AddsExactly afterRename fs' NodeId.root "c" entry →
        afterRename.Spare NodeId.root "c" entry.metadata) ∧
      (afterRename.NamesUnique → afterRename.Spare NodeId.root "c" entry.metadata →
        AddsExactly afterRename fs' NodeId.root "c" entry) ∧
      (Meets localStep StepKnown renameCalls (init (0 : ℕ) 0) → afterRename.NamesUnique) :=
  ⟨_, _, _, rfl, create_addsExactly (rfl : run localStep renameCalls (init 0 0) = _)
    (by decide) (by decide) .root (Or.inr (Or.inl rfl)) rfl⟩

/-- A new file of the first name takes over the renamed file: its old entry is gone. -/
theorem create_disturbs_renamed :
    run localStep renameCalls (init (0 : ℕ) 0) = some afterRename ∧
      Meets localStep StepNewest renameCalls (init (0 : ℕ) 0) ∧
      afterRename.tree.Newest 3 ∧ afterRename.Live NodeId.root ∧
      ∃ entry ops fs', afterRename.createFile 3 NodeId.root "a" = (.ok ⟨entry, ops⟩, fs') ∧
        ¬ AddsExactly afterRename fs' NodeId.root "a" entry := by
  refine ⟨rfl, by decide, by decide, .root, _, _, _, rfl, fun h => ?_⟩
  have hb := (h.resolves NodeId.root "b" ⟨UuidV5.newV5 Uuid.nil "a"⟩ (.regularFile "b" 0 []) .root
    rfl rfl).1
  cases hb

end Edfs.FileSystem
