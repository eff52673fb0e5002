import Edfs.Filesystem.Listing
import Edfs.Filesystem.Names

/-!
# What deleting and renaming do to the namespace

Deleting an entry and renaming it are each one move of its node, into the trash or under the new
parent. The tree ignores a move of a node below itself, and neither call looks whether the move was
done.

* `childId_of_update`: a move changes no name but the one left and the one taken;
* `RemovesExactly`, a call that takes away one entry; `delete_removes`: deleting does that;
* `RenamesExactly`, a call that moves one entry; `Free`, the new parent is a live directory that
  does not lie at or below the node;
* `rename_exactly`: a successful rename moves exactly its entry when its new parent is free, and
  only then.
-/

namespace Edfs

namespace FileSystem

open Execution

variable {PeerId : Type} [CrdtTree PeerId] [LinearOrder PeerId] [LawfulCrdtTree PeerId]

/-! ### Names after a move -/

section Update

variable {fs fs' : FileSystem PeerId} {n p q : NodeId} {m m' : NodeMeta}
  (hn : fs.tree.find n = some ⟨p, m⟩)
  (hf : fs'.tree.find = Function.update fs.tree.find n (some ⟨q, m'⟩))

include hn hf

omit [LinearOrder PeerId] [LawfulCrdtTree PeerId] in
theorem known_update (d : NodeId) : fs'.Known d ↔ fs.Known d := by
  unfold Known
  rw [hf]
  by_cases hd : d = n
  · subst hd
    simp [hn]
  · simp [hd]

/-- A move changes no name but the one left and the one taken. -/
theorem childId_of_update (h : fs.NamesDiffer) (h' : fs'.NamesDiffer) {d : NodeId}
    (hd : d ≠ NodeId.trash) {x : String} (hleft : ¬ (d = p ∧ x = m.name))
    (htaken : ¬ (d = q ∧ x = m'.name)) : fs'.childId d x = fs.childId d x := by
  refine childId_ext fun c => ?_
  rw [childId_eq_ok_iff (h'.heldOnce hd x), childId_eq_ok_iff (h.heldOnce hd x),
    known_update hn hf, HasName, HasName, hf]
  refine and_congr_right fun _ => exists_congr fun mc => ?_
  by_cases hc : c = n
  · subst hc
    rw [Function.update_self, hn]
    constructor
    · rintro ⟨heq, rfl⟩
      cases heq
      exact absurd ⟨rfl, rfl⟩ htaken
    · rintro ⟨heq, rfl⟩
      cases heq
      exact absurd ⟨rfl, rfl⟩ hleft
  · rw [Function.update_of_ne hc]

/-- The name left resolves to nothing. -/
theorem childId_left (h : fs.NamesDiffer) (hp : p ≠ NodeId.trash)
    (hne : ¬ (q = p ∧ m'.name = m.name)) : fs'.childId p m.name = .error .notFound := by
  cases hc : fs'.childId p m.name with
  | error e => rw [childId_error hc]
  | ok c =>
    exfalso
    obtain ⟨mc, hmc, hname⟩ := find_of_childId hc
    rw [hf] at hmc
    by_cases hcn : c = n
    · subst hcn
      rw [Function.update_self] at hmc
      cases hmc
      exact hne ⟨rfl, hname⟩
    · rw [Function.update_of_ne hcn] at hmc
      exact hcn (h p hp c n mc m hmc hn hname)

/-- The name taken resolves to the moved node. -/
theorem childId_taken (h' : fs'.NamesDiffer) (hq : q ≠ NodeId.trash) (hknown : fs.Known q) :
    fs'.childId q m'.name = .ok n := by
  refine (childId_eq_ok_iff (h'.heldOnce hq _)).2 ⟨(known_update hn hf q).2 hknown, m', ?_, rfl⟩
  rw [hf, Function.update_self]

end Update

omit [LinearOrder PeerId] [LawfulCrdtTree PeerId] in
/-- A directory stays live if nothing on its way to the root is changed. -/
theorem Live.of_agree {fs fs' : FileSystem PeerId} {n : NodeId}
    (hagree : ∀ x, x ≠ n → fs'.tree.find x = fs.tree.find x) {d : NodeId} (hd : fs.Live d)
    (hne : d ≠ n) (hbelow : ¬ fs.tree.state.tree.Ancestor d n) : fs'.Live d := by
  induction hd with
  | root => exact .root
  | @child d p name hp hd ih =>
    have hedge : fs.tree.state.tree.Edge d p := (NodeTree.edge_iff _ _ _).2 ⟨_, hd⟩
    refine .child (ih ?_ fun hup => hbelow (.head hedge hup)) ((hagree d hne).trans hd)
    rintro rfl
    exact hbelow (.single hedge)

omit [LinearOrder PeerId] [LawfulCrdtTree PeerId] in
/-- The ways to the root that do not start at a childless node stay when that node is moved. -/
theorem ancestor_of_agree {fs fs' : FileSystem PeerId} {n : NodeId}
    (hagree : ∀ x, x ≠ n → fs'.tree.find x = fs.tree.find x)
    (hempty : ∀ x m, fs.tree.find x ≠ some ⟨n, m⟩) {x a : NodeId} (hx : x ≠ n)
    (hxa : fs.tree.state.tree.Ancestor x a) : fs'.tree.state.tree.Ancestor x a := by
  induction hxa using Relation.TransGen.head_induction_on with
  | @single x hedge =>
    obtain ⟨mx, hmx⟩ := (NodeTree.edge_iff _ _ _).1 hedge
    exact .single ((NodeTree.edge_iff _ _ _).2 ⟨mx, (hagree x hx).trans hmx⟩)
  | @head x b hedge _ ih =>
    obtain ⟨mx, hmx⟩ := (NodeTree.edge_iff _ _ _).1 hedge
    have hb : b ≠ n := by
      rintro rfl
      exact hempty x mx hmx
    exact .head ((NodeTree.edge_iff _ _ _).2 ⟨mx, (hagree x hx).trans hmx⟩) (ih hb)

/-! ### Deleting -/

/-- A call that takes the entry of the node away, and nothing else. -/
structure RemovesExactly (fs fs' : FileSystem PeerId) (parent : NodeId) (name : String)
    (n : NodeId) : Prop where
  /-- The name resolved to the node, and resolves to nothing now. -/
  resolved : fs.childId parent name = .ok n
  gone : fs'.childId parent name = .error .notFound
  trashed : fs'.metadata n = .error .notFound
  /-- Every other name resolves as before, to a node with the same metadata in the tree. -/
  others : ∀ d x, d ≠ NodeId.trash → ¬ (d = parent ∧ x = name) →
    fs'.childId d x = fs.childId d x
  metadata : ∀ c, fs'.tree.metadata c = fs.tree.metadata c

/-- What a successful call of `delete_file` or `delete_directory` has done. -/
structure Deletes (fs fs' : FileSystem PeerId) (now : ℕ) (parent : NodeId) (name : String)
    (n : NodeId) : Prop where
  resolved : fs.childId parent name = .ok n
  shown : ∃ m, fs.metadata n = .ok m
  issued : ∃ m, fs.tree.metadata n = some m ∧
    fs'.tree = (fs.tree.issue now n NodeId.trash m).2

omit [LinearOrder PeerId] [LawfulCrdtTree PeerId] in
theorem deleteNode_ok {fs fs' : FileSystem PeerId} {now : ℕ} {n : NodeId}
    {ops : List (NodeOperation PeerId)}
    (h : fs.ofTree (fs.tree.deleteNode now n) = (.ok ⟨(), ops⟩, fs')) :
    ∃ m, fs.tree.metadata n = some m ∧ fs'.tree = (fs.tree.issue now n NodeId.trash m).2 := by
  unfold NodeTree.deleteNode at h
  cases hr : n.isReserved with
  | true => simp [hr, ofTree] at h
  | false =>
    cases hm : fs.tree.metadata n with
    | none => simp [hr, hm, ofTree] at h
    | some m =>
      simp only [hr, hm] at h
      cases h
      exact ⟨m, rfl, rfl⟩

omit [LinearOrder PeerId] [LawfulCrdtTree PeerId] in
theorem deleteFile_ok {fs fs' : FileSystem PeerId} {now : ℕ} {parent : NodeId} {name : String}
    {ops : List (NodeOperation PeerId)}
    (h : fs.deleteFile now parent name = (.ok ⟨(), ops⟩, fs')) :
    ∃ n, Deletes fs fs' now parent name n := by
  unfold deleteFile at h
  cases hc : fs.childId parent name with
  | error e => simp [hc] at h
  | ok n =>
    cases hm : fs.metadata n with
    | error e => simp [hc, hm] at h
    | ok m =>
      cases m with
      | directory name' => simp [hc, hm] at h
      | regularFile name' size refs =>
        simp only [hc, hm] at h
        exact ⟨n, hc, ⟨_, hm⟩, deleteNode_ok h⟩
      | symlink name' target =>
        simp only [hc, hm] at h
        exact ⟨n, hc, ⟨_, hm⟩, deleteNode_ok h⟩

omit [LinearOrder PeerId] [LawfulCrdtTree PeerId] in
theorem deleteDirectory_ok {fs fs' : FileSystem PeerId} {now : ℕ} {parent : NodeId}
    {name : String} {ops : List (NodeOperation PeerId)}
    (h : fs.deleteDirectory now parent name = (.ok ⟨(), ops⟩, fs')) :
    ∃ n, Deletes fs fs' now parent name n ∧ fs.tree.children n = .ok [] := by
  unfold deleteDirectory at h
  cases hc : fs.childId parent name with
  | error e => simp [hc] at h
  | ok n =>
    cases hm : fs.metadata n with
    | error e => simp [hc, hm] at h
    | ok m =>
      cases m with
      | regularFile name' size refs => simp [hc, hm] at h
      | symlink name' target => simp [hc, hm] at h
      | directory name' =>
        cases hch : fs.tree.children n with
        | error e => simp [hc, hm, hch] at h
        | ok children =>
          simp only [hc, hm, hch] at h
          split_ifs at h with hne
          · cases h
          · exact ⟨n, ⟨hc, ⟨_, hm⟩, deleteNode_ok h⟩, by rw [hch, not_not.1 hne]⟩

/-- A move into the trash is done. -/
theorem find_issue_trash {fs : FileSystem PeerId} (h : fs.Rooted) {now : ℕ}
    (hnow : fs.tree.Newest now) {n : NodeId} (hn : n ≠ NodeId.trash) (m : NodeMeta) :
    (fs.tree.issue now n NodeId.trash m).2.find
      = Function.update fs.tree.find n (some ⟨NodeId.trash, m⟩) := by
  rcases find_issue hnow n NodeId.trash m with ⟨-, htrash | hup⟩ | ⟨hf, -⟩
  · exact absurd htrash hn
  · exact absurd hup (MoveTree.Tree.not_ancestor_of_none h.trash n)
  · exact hf

section Delete

variable {fs fs' : FileSystem PeerId} {now : ℕ} {parent n : NodeId} {name : String}

/-- Where the deleted node was, and where it is. -/
theorem Deletes.find (hdel : Deletes fs fs' now parent name n) (h : fs.Rooted)
    (hnow : fs.tree.Newest now) :
    ∃ m, fs.tree.find n = some ⟨parent, m⟩ ∧ m.name = name ∧ parent ≠ NodeId.trash ∧
      n ≠ NodeId.root ∧
      fs'.tree.find = Function.update fs.tree.find n (some ⟨NodeId.trash, m⟩) := by
  obtain ⟨m, hm, hname⟩ := find_of_childId hdel.resolved
  obtain ⟨m', hm', ht⟩ := hdel.issued
  obtain ⟨p, hp⟩ := treeMetadata_eq_some.1 hm'
  cases hm.symm.trans hp
  have hroot := h.ne_root hm
  obtain ⟨ms, hms⟩ := hdel.shown
  exact ⟨m, hm, hname, ne_trash_of_metadata hms hroot hm, hroot,
    by rw [ht, find_issue_trash h hnow (h.ne_trash hm) m]⟩

theorem Deletes.trashed (hdel : Deletes fs fs' now parent name n) (h : fs.Rooted)
    (hnow : fs.tree.Newest now) : fs'.metadata n = .error .notFound := by
  obtain ⟨m, -, -, -, hroot, hf⟩ := hdel.find h hnow
  have htrashed : fs'.tree.isTrashed n = true := by
    simp [NodeTree.isTrashed, NodeTree.parentId, hf]
  rw [FileSystem.metadata, if_neg hroot, htrashed]
  rfl

theorem Deletes.removesExactly (hdel : Deletes fs fs' now parent name n) (h : fs.Rooted)
    (hnow : fs.tree.Newest now) (hnames : fs.NamesDiffer) :
    RemovesExactly fs fs' parent name n := by
  obtain ⟨m, hm, rfl, hparent, -, hf⟩ := hdel.find h hnow
  have hnames' : fs'.NamesDiffer := namesDiffer_update hnames hf fun hne => absurd rfl hne
  refine ⟨hdel.resolved, ?_, hdel.trashed h hnow, fun d x hd hne => ?_, fun c => ?_⟩
  · exact childId_left hm hf hnames hparent fun heq => hparent heq.1.symm
  · exact childId_of_update hm hf hnames hnames' hd hne fun heq => hd heq.1
  · unfold NodeTree.metadata
    rw [hf]
    by_cases hc : c = n
    · rw [hc, Function.update_self, hm]
      rfl
    · rw [Function.update_of_ne hc]

theorem Deletes.keeps_paths (hdel : Deletes fs fs' now parent name n) (h : fs.Rooted)
    (hnow : fs.tree.Newest now) (hempty : fs.tree.children n = .ok []) {x : NodeId} (hx : x ≠ n)
    (hpath : fs.tree.state.tree.Ancestor x NodeId.root) :
    fs'.tree.state.tree.Ancestor x NodeId.root := by
  obtain ⟨m, hm, -, -, -, hf⟩ := hdel.find h hnow
  refine ancestor_of_agree (fun y hy => by rw [hf, Function.update_of_ne hy]) ?_ hx hpath
  intro y my hy
  have hmem := NodeTree.mem_crdtChildren.2 ⟨my, hy⟩
  rw [children_of_known (Or.inr ⟨_, hm⟩)] at hempty
  rw [Except.ok.inj hempty] at hmem
  exact List.not_mem_nil hmem

end Delete

/-! ### Renaming -/

/-- A call that moves the entry of the node, and nothing else. -/
structure RenamesExactly (fs fs' : FileSystem PeerId) (parent : NodeId) (name : String)
    (newParent : NodeId) (newName : String) (n : NodeId) (m : NodeMeta) : Prop where
  /-- The new name resolves to the node, which has kept its kind and what belongs to it. -/
  resolvesNew : fs'.childId newParent newName = .ok n
  metadata : fs'.metadata n = .ok (renamed newName m)
  gone : fs'.childId parent name = .error .notFound
  live : fs'.Live newParent
  /-- Every other name resolves as before. -/
  others : ∀ d x, d ≠ NodeId.trash → ¬ (d = parent ∧ x = name) →
    ¬ (d = newParent ∧ x = newName) → fs'.childId d x = fs.childId d x

/-- The directory can take the node: it can be reached from the root, and it is not the node and
does not lie below it. -/
def Admits (fs : FileSystem PeerId) (newParent n : NodeId) : Prop :=
  fs.Live newParent ∧ n ≠ newParent ∧ ¬ fs.tree.state.tree.Ancestor newParent n

variable [UuidV5]

/-- What a successful rename to another place has done. -/
structure Renames (fs fs' : FileSystem PeerId) (now : ℕ) (parent : NodeId) (name : String)
    (newParent : NodeId) (newName : String) (n : NodeId) (m : NodeMeta) : Prop where
  elsewhere : ¬ (newParent = parent ∧ newName = name)
  resolved : fs.childId parent name = .ok n
  shown : fs.metadata n = .ok m
  issues : fs.Issues (some newParent) n newParent (renamed newName m)
  issued : fs'.tree = (fs.tree.issue now n newParent (renamed newName m)).2

omit [LawfulCrdtTree PeerId] [LinearOrder PeerId] in
theorem rename_ok {fs fs' : FileSystem PeerId} {now : ℕ} {parent newParent : NodeId}
    {name newName : String} {ops : List (NodeOperation PeerId)}
    (hne : ¬ (newParent = parent ∧ newName = name))
    (h : fs.rename now parent name newParent newName = (.ok ⟨(), ops⟩, fs')) :
    ∃ n m, Renames fs fs' now parent name newParent newName n m := by
  rcases rename_cases fs now parent name newParent newName with
    ⟨e, he⟩ | ⟨hp, hn, -⟩ | ⟨-, n, m, hc, hm, hi, heq⟩
  · cases he.symm.trans h
  · exact absurd ⟨hp, hn⟩ hne
  · cases heq.symm.trans h
    exact ⟨n, m, hne, hc, hm, hi, rfl⟩

section Rename

variable {fs fs' : FileSystem PeerId} {now : ℕ} {parent newParent n : NodeId}
  {name newName : String} {m : NodeMeta}

/-- Where the renamed node was. -/
theorem Renames.find (hr : Renames fs fs' now parent name newParent newName n m)
    (h : fs.Rooted) :
    fs.tree.find n = some ⟨parent, m⟩ ∧ m.name = name ∧ parent ≠ NodeId.trash := by
  obtain ⟨m', hm', hname⟩ := find_of_childId hr.resolved
  have htrash := ne_trash_of_metadata hr.shown (h.ne_root hm') hm'
  cases (metadata_of_child h htrash hm').symm.trans hr.shown
  exact ⟨hm', hname, htrash⟩

/-- A rename that moves its entry had a new parent that can take the node. -/
theorem Renames.admits (hr : Renames fs fs' now parent name newParent newName n m)
    (h : fs.Rooted) (hnow : fs.tree.Newest now)
    (hexact : RenamesExactly fs fs' parent name newParent newName n m) :
    fs.Admits newParent n := by
  obtain ⟨hm, hname, -⟩ := hr.find h
  obtain ⟨m', hm', hname'⟩ := find_of_childId hexact.resolvesNew
  have hsound : fs'.tree.Sound := by
    rw [hr.issued]
    exact h.sound.issue _ _ _ _
  rcases find_issue hnow n newParent (renamed newName m) with ⟨hsame, -⟩ | ⟨hf, hfree⟩
  · -- an ignored move leaves the node under its old name
    rw [hr.issued, hsame] at hm'
    cases hm.symm.trans hm'
    exact absurd ⟨rfl, hname'.symm.trans hname⟩ hr.elsewhere
  · rw [← hr.issued] at hf
    obtain ⟨hne, hbelow⟩ := not_or.1 hfree
    have hedge : fs'.tree.state.tree.Edge n newParent := (NodeTree.edge_iff _ _ _).2 ⟨m', hm'⟩
    have hagree : ∀ x, x ≠ n → fs.tree.find x = fs'.tree.find x := fun x hx => by
      rw [hf, Function.update_of_ne hx]
    refine ⟨hexact.live.of_agree hagree (Ne.symm hne) fun hup => ?_, hne, hbelow⟩
    exact hsound.acyclic n (.head hedge hup)

/-- A rename into a directory that can take the node moves exactly its entry. -/
theorem Renames.exactly (hr : Renames fs fs' now parent name newParent newName n m)
    (h : fs.Rooted) (hnow : fs.tree.Newest now) (hnames : fs.NamesDiffer)
    (hadmits : fs.Admits newParent n) :
    RenamesExactly fs fs' parent name newParent newName n m := by
  obtain ⟨hm, rfl, hparent⟩ := hr.find h
  obtain ⟨hlive, hne, hbelow⟩ := hadmits
  have htrash : newParent ≠ NodeId.trash := hlive.ne_trash h
  have hknown := known_of_live hlive
  have hroot := h.ne_root hm
  have hf : fs'.tree.find
      = Function.update fs.tree.find n (some ⟨newParent, renamed newName m⟩) := by
    rw [hr.issued]
    rcases find_issue hnow n newParent (renamed newName m) with ⟨-, hblocked⟩ | ⟨hf, -⟩
    · exact absurd hblocked (not_or.2 ⟨hne, hbelow⟩)
    · exact hf
  have hnames' : fs'.NamesDiffer := by
    refine namesDiffer_update hnames hf fun _ c mc hc hname => ?_
    refine hr.issues.name_free hnames (fun d hd => ?_) htrash hc hname
    cases hd
    exact hknown
  have hnew := childId_taken hm hf hnames' htrash hknown
  rw [renamed_name] at hnew
  refine ⟨hnew, ?_, ?_, ?_, fun d x hd hleft htaken => ?_⟩
  · exact metadata_of_find (by rw [hf, Function.update_self]) hroot htrash
  · refine childId_left hm hf hnames hparent fun heq => hr.elsewhere ⟨heq.1, ?_⟩
    rw [← heq.2, renamed_name]
  · exact hlive.of_agree (fun x hx => by rw [hf, Function.update_of_ne hx]) hne.symm hbelow
  · refine childId_of_update hm hf hnames hnames' hd hleft fun heq => htaken ⟨heq.1, ?_⟩
    rw [heq.2, renamed_name]

end Rename

/-! ### After a run -/

variable [Sha256] [FastCdc] [LawfulUuidV5]

/-- **Deleting removes exactly one entry.** After any local run in which every issued timestamp is
newer than the log and every call that puts a node somewhere names a directory that the tree knows,
a successful `delete_file` or `delete_directory` takes away the entry it names and changes no
other; and a deleted directory was empty, so no other node loses its path to the root. -/
theorem delete_removes {p : PeerId} {maxPinnedBytes : ℕ} {calls : List (ℕ × Mutator)}
    {fs fs' : FileSystem PeerId} (hrun : run localStep calls (init p maxPinnedBytes) = some fs)
    (hnew : Meets localStep StepNewest calls (init p maxPinnedBytes))
    (hknown : Meets localStep StepKnown calls (init p maxPinnedBytes))
    {now : ℕ} (hnow : fs.tree.Newest now) {parent : NodeId} {name : String}
    {ops : List (NodeOperation PeerId)} :
    (fs.deleteFile now parent name = (.ok ⟨(), ops⟩, fs') →
      ∃ n, RemovesExactly fs fs' parent name n) ∧
      (fs.deleteDirectory now parent name = (.ok ⟨(), ops⟩, fs') →
        ∃ n, RemovesExactly fs fs' parent name n ∧ fs.tree.children n = .ok [] ∧
          ∀ x, x ≠ n → fs.tree.state.tree.Ancestor x NodeId.root →
            fs'.tree.state.tree.Ancestor x NodeId.root) := by
  have h := rooted_run hrun hnew
  have hnames := namesDiffer_run hrun hnew hknown
  constructor
  · intro hok
    obtain ⟨n, hdel⟩ := deleteFile_ok hok
    exact ⟨n, hdel.removesExactly h hnow hnames⟩
  · intro hok
    obtain ⟨n, hdel, hempty⟩ := deleteDirectory_ok hok
    exact ⟨n, hdel.removesExactly h hnow hnames, hempty,
      fun x => hdel.keeps_paths h hnow hempty⟩

/-- **What a successful rename does**, after any local run in which every issued timestamp is newer
than the log. It moves exactly its entry only into a directory that can be reached from the root and
does not lie at or below the node; and there it does so if names are unique, as they are when every
call of the run that puts a node somewhere names a directory that the tree knows. -/
theorem rename_exactly {p : PeerId} {maxPinnedBytes : ℕ} {calls : List (ℕ × Mutator)}
    {fs fs' : FileSystem PeerId} (hrun : run localStep calls (init p maxPinnedBytes) = some fs)
    (hnew : Meets localStep StepNewest calls (init p maxPinnedBytes))
    {now : ℕ} (hnow : fs.tree.Newest now) {parent newParent : NodeId} {name newName : String}
    (hne : ¬ (newParent = parent ∧ newName = name)) {ops : List (NodeOperation PeerId)}
    (hok : fs.rename now parent name newParent newName = (.ok ⟨(), ops⟩, fs')) :
    ∃ n m, fs.childId parent name = .ok n ∧ fs.metadata n = .ok m ∧
      (RenamesExactly fs fs' parent name newParent newName n m → fs.Admits newParent n) ∧
      (fs.NamesDiffer → fs.Admits newParent n →
        RenamesExactly fs fs' parent name newParent newName n m) ∧
      (Meets localStep StepKnown calls (init p maxPinnedBytes) → fs.NamesDiffer) := by
  have h := rooted_run hrun hnew
  obtain ⟨n, m, hr⟩ := rename_ok hne hok
  exact ⟨n, m, hr.resolved, hr.shown, hr.admits h hnow, hr.exactly h hnow,
    namesDiffer_run hrun hnew⟩

end FileSystem

end Edfs

namespace Edfs.FileSystem

open Execution Reference
open ReplicaWorld (inRoot)

/-- The call that creates the directory "d". -/
def directoryCalls : List (ℕ × Mutator) := [(1, .createDirectory NodeId.root "d")]

/-- A node that has created a directory. -/
def withDirectory : FileSystem ℕ :=
  ((init (0 : ℕ) 100).mutate 1 (.createDirectory NodeId.root "d")).2

theorem directoryCalls_known : Meets localStep StepKnown directoryCalls (init (0 : ℕ) 100) := by
  refine ⟨fun d hd => ?_, fun _ _ => trivial⟩
  cases hd
  exact Or.inl rfl

theorem delete_removes_directory :
    ∃ ops fs' n, withDirectory.deleteDirectory 2 NodeId.root "d" = (.ok ⟨(), ops⟩, fs') ∧
      RemovesExactly withDirectory fs' NodeId.root "d" n := by
  obtain ⟨ops, fs', hok⟩ : ∃ ops fs',
      withDirectory.deleteDirectory 2 NodeId.root "d" = (.ok ⟨(), ops⟩, fs') := ⟨_, _, rfl⟩
  obtain ⟨n, hremoves, -⟩ := (delete_removes (rfl : run localStep directoryCalls (init 0 100) = _)
    (by decide) directoryCalls_known (by decide)).2 hok
  exact ⟨ops, fs', n, hok, hremoves⟩

theorem rename_exactly_directory :
    ∃ ops fs' n m, withDirectory.rename 2 NodeId.root "d" NodeId.root "e" = (.ok ⟨(), ops⟩, fs') ∧
      RenamesExactly withDirectory fs' NodeId.root "d" NodeId.root "e" n m := by
  obtain ⟨ops, fs', hok⟩ : ∃ ops fs',
      withDirectory.rename 2 NodeId.root "d" NodeId.root "e" = (.ok ⟨(), ops⟩, fs') := ⟨_, _, rfl⟩
  obtain ⟨n, m, hn, -, -, hexact, hnames⟩ :=
    rename_exactly (rfl : run localStep directoryCalls (init 0 100) = _)
      (by decide) (by decide) (by decide) hok
  have hroot : n ≠ NodeId.root := by
    rintro rfl
    cases hn
  exact ⟨ops, fs', n, m, hok, hexact (hnames directoryCalls_known)
    ⟨.root, hroot, MoveTree.Tree.not_ancestor_of_none rfl n⟩⟩

/-- A rename of a directory into itself returns `Ok`, and the directory is still at its old name. -/
theorem rename_into_itself :
    run localStep directoryCalls (init (0 : ℕ) 100) = some withDirectory ∧
      Meets localStep StepNewest directoryCalls (init (0 : ℕ) 100) ∧
      Meets localStep StepKnown directoryCalls (init (0 : ℕ) 100) ∧
      withDirectory.tree.Newest 2 ∧
      withDirectory.childId NodeId.root "d" = .ok (inRoot "d") ∧
      ∃ ops fs', withDirectory.rename 2 NodeId.root "d" (inRoot "d") "x" = (.ok ⟨(), ops⟩, fs') ∧
        ∀ n m, ¬ RenamesExactly withDirectory fs' NodeId.root "d" (inRoot "d") "x" n m := by
  refine ⟨rfl, by decide, directoryCalls_known, by decide, rfl, _, _, rfl, fun n m h => ?_⟩
  have hgone := h.gone
  cases hgone

end Edfs.FileSystem
