import Edfs.Base.Paging
import Edfs.Fuse.Requests
import Edfs.Filesystem.Replicas

/-!
# Reading a directory page by page

The kernel reads a directory with several `readdir` requests, each from the offset of the last entry
it has taken. An offset is a position in the list that the handler builds anew for each request, so
what changes in the directory between two requests can move entries across it.

* `Slot`, `slots`: what the handler lists of a directory; `ShowsAt`: the entry it replies for that;
* `DirectoryReader`, `readerStep`: the requests of one reader, and anything else in between;
* `shift`: how often changes bring an entry before the reader's offset, less how often behind it;
* `listing_once_iff`: an entry that stays is returned exactly once if and only if that is zero.
-/

namespace Edfs.FuseFileSystem

open Execution FileSystem Paging

/-! ### What the handler lists -/

/-- What an entry of a listing stands for. -/
inductive Slot
  | self
  | parent
  | child (n : NodeId) (name : String)
  deriving DecidableEq

/-- A returned entry shows the child: it comes after the two dots, has the child's name, and its
number leads to the child. -/
def ShowsChild (m : INodeMap) (n : NodeId) (name : String) (r : DirectoryEntry × ℕ) : Prop :=
  2 < r.2 ∧ r.1.name = name ∧ m.getNodeId r.1.ino = some n

instance (m : INodeMap) (n : NodeId) (name : String) (r : DirectoryEntry × ℕ) :
    Decidable (ShowsChild m n name r) := inferInstanceAs (Decidable (_ ∧ _ ∧ _))

/-- The entry that the handler returns for a slot, with the offset after it. -/
def ShowsAt (m : INodeMap) (ino : INodeNo) : Slot → DirectoryEntry × ℕ → Prop
  | .self, r => r = (⟨ino, .directory, "."⟩, 1)
  | .parent, r => (∃ n, m.getNodeId r.1.ino = some n) ∧ r = (⟨r.1.ino, .directory, ".."⟩, 2)
  | .child n name, r => ShowsChild m n name r

theorem ShowsAt.showsChild_iff {m : INodeMap} {ino : INodeNo} {slot : Slot}
    {r : DirectoryEntry × ℕ} (h : ShowsAt m ino slot r) {n : NodeId} {name : String} :
    ShowsChild m n name r ↔ slot = .child n name := by
  cases slot with
  | self =>
    obtain rfl := h
    simp [ShowsChild]
  | parent =>
    obtain ⟨-, hr⟩ := h
    rw [hr]
    simp [ShowsChild]
  | child n' name' =>
    obtain ⟨hoff, hname, hn⟩ := h
    constructor
    · rintro ⟨-, hname', hn'⟩
      rw [← hname, hname', Option.some.inj (hn.symm.trans hn')]
    · intro heq
      cases heq
      exact ⟨hoff, hname, hn⟩

theorem ShowsAt.extends {m m' : INodeMap} (hm : m.Bounded) (hext : m.Extends m') {ino : INodeNo}
    {slot : Slot} {r : DirectoryEntry × ℕ} (h : ShowsAt m ino slot r) :
    ShowsAt m' ino slot r := by
  cases slot with
  | self => exact h
  | parent =>
    obtain ⟨⟨n, hn⟩, hr⟩ := h
    exact ⟨⟨n, hext.kept hm _ _ hn⟩, hr⟩
  | child n name => exact ⟨h.1, h.2.1, hext.kept hm _ _ h.2.2⟩

/-- The entries for slots show a child as often as it is among the slots. -/
theorem countP_showsChild {m : INodeMap} {ino : INodeNo} {l : List Slot}
    {rs : List (DirectoryEntry × ℕ)} (h : List.Forall₂ (ShowsAt m ino) l rs) (n : NodeId)
    (name : String) : (rs.countP fun r => ShowsChild m n name r) = l.count (.child n name) := by
  induction h with
  | nil => rfl
  | @cons slot r l rs hr _ ih =>
    rw [List.countP_cons, List.count_cons, ih]
    congr 1
    exact if_congr (by simpa using hr.showsChild_iff) rfl rfl

/-- Every entry is for some slot. -/
theorem exists_slot {m : INodeMap} {ino : INodeNo} {l : List Slot}
    {rs : List (DirectoryEntry × ℕ)} (h : List.Forall₂ (ShowsAt m ino) l rs)
    {r : DirectoryEntry × ℕ} (hr : r ∈ rs) : ∃ slot, ShowsAt m ino slot r := by
  induction h with
  | nil => exact absurd hr List.not_mem_nil
  | @cons slot r' _ _ hr' _ ih =>
    rcases List.mem_cons.1 hr with rfl | hr
    · exact ⟨slot, hr'⟩
    · exact ih hr

/-- The entries are those after the offset, one after the other. -/
def Numbered (offset : ℕ) (rs : List (DirectoryEntry × ℕ)) : Prop :=
  rs.map Prod.snd = List.range' (offset + 1) rs.length

theorem Numbered.take {offset : ℕ} {rs : List (DirectoryEntry × ℕ)} (h : Numbered offset rs)
    (k : ℕ) : Numbered offset (rs.take k) := by
  unfold Numbered
  rw [List.map_take, h, List.length_take]
  rcases le_total k rs.length with hk | hk
  · rw [List.take_range'_of_length_ge hk, Nat.min_eq_left hk]
  · rw [List.take_range'_of_length_le hk, Nat.min_eq_right hk]

theorem Numbered.append {offset : ℕ} {rs rs' : List (DirectoryEntry × ℕ)}
    (h : Numbered offset rs) (h' : Numbered (offset + rs.length) rs') :
    Numbered offset (rs ++ rs') := by
  unfold Numbered at h h' ⊢
  rw [List.map_append, h, h', List.length_append, ← List.range'_append_1]
  congr 2
  omega

/-- The offset attached to the last entry is the one after all of them. -/
theorem Numbered.next {offset : ℕ} {rs : List (DirectoryEntry × ℕ)} (h : Numbered offset rs) :
    (rs.getLast?.map Prod.snd).getD offset = offset + rs.length := by
  rw [← List.getLast?_map, h, List.getLast?_range']
  split_ifs with hzero
  · rw [hzero]
    rfl
  · show offset + 1 + rs.length - 1 = offset + rs.length
    omega

variable {PeerId : Type} [CrdtTree PeerId]

/-- The slots that the handler lists for a directory, if it can. -/
def slots (fs : FileSystem PeerId) (d : NodeId) : List Slot :=
  match fs.listDirectory d with
  | .error _ => []
  | .ok entries => .self :: .parent :: entries.map fun e => .child e.1 e.2.1

/-- The entry is in the directory. -/
def Listed (d n : NodeId) (name : String) (fs : FileSystem PeerId) : Prop :=
  .child n name ∈ slots fs d

instance (d n : NodeId) (name : String) (fs : FileSystem PeerId) :
    Decidable (Listed d n name fs) := inferInstanceAs (Decidable (_ ∈ _))

/-- The ids of a list of entries are some of the children, in their order. -/
theorem entries_sublist (fs : FileSystem PeerId) (children : List NodeId) :
    ((fs.entries children).map Prod.fst).Sublist children := by
  unfold FileSystem.entries
  induction children with
  | nil => exact .slnil
  | cons c children ih =>
    cases hm : fs.metadata c with
    | error e => simpa [hm] using ih.cons c
    | ok m => simpa [hm] using ih

/-- A directory lists no child twice. -/
theorem slots_nodup [LinearOrder PeerId] [LawfulCrdtTree PeerId] (fs : FileSystem PeerId)
    (d : NodeId) : (slots fs d).Nodup := by
  unfold slots
  cases hlist : fs.listDirectory d with
  | error e => exact List.nodup_nil
  | ok entries =>
    have hids : (entries.map Prod.fst).Nodup := by
      unfold listDirectory NodeTree.children at hlist
      split at hlist
      · cases hlist
      · split_ifs at hlist
        cases hlist
        exact (LawfulCrdtTree.children_nodup fs.tree.tree d).sublist (entries_sublist fs _)
      · cases hlist
    have hchildren : (entries.map fun e => Slot.child e.1 e.2.1).Nodup := by
      refine List.Nodup.map_on (fun e he e' he' heq => ?_) (hids.of_map _)
      exact List.inj_on_of_nodup_map hids he he' (Slot.child.inj heq).1
    exact List.nodup_cons.2 ⟨by simp, List.nodup_cons.2 ⟨by simp, hchildren⟩⟩

/-! ### The reply of one request -/

theorem forall₂_numberChildren {m : INodeMap} (hm : m.Bounded) (ino : INodeNo)
    (children : List (NodeId × String × NodeMeta)) {start : ℕ} (hstart : 2 < start) :
    List.Forall₂ (ShowsAt (numberChildren children m).2 ino)
      (children.map fun e => .child e.1 e.2.1)
      ((numberChildren children m).1.zipIdx start) := by
  induction children generalizing m start with
  | nil => exact .nil
  | cons c children ih =>
    obtain ⟨n, name, md⟩ := c
    have hext := m.extends_getOrAssignIno n
    have hb := hext.bounded hm
    have hn := m.getNodeId_getOrAssignIno n
    have hrest := extends_numberChildren children (m.getOrAssignIno n).2
    exact .cons ⟨hstart, rfl, hrest.kept hb _ _ hn⟩ (ih hb (Nat.lt_succ_of_lt hstart))

/-- **What `readdir` replies**: the entries for the slots of the directory, from the offset on. -/
theorem readdir_ok {s s' : FuseFileSystem PeerId} (hs : s.inodeMap.Bounded) {ino : INodeNo}
    {d : NodeId} (hino : s.inodeMap.getNodeId ino = some d) {offset : ℕ}
    {reply : List (DirectoryEntry × ℕ)} (h : s.readdir ino offset = (.ok reply, s')) :
    s'.filesystem = s.filesystem ∧ s.inodeMap.Extends s'.inodeMap ∧
      List.Forall₂ (ShowsAt s'.inodeMap ino) ((slots s.filesystem d).drop offset) reply ∧
      Numbered offset reply := by
  unfold readdir inoToNodeId at h
  unfold slots
  rw [hino] at h
  cases hlist : s.filesystem.listDirectory d with
  | error e => simp [hlist] at h
  | ok children =>
    simp only [hlist] at h
    cases h
    have hparent := s.inodeMap.extends_getOrAssignIno (s.filesystem.parentId d)
    have hb := hparent.bounded hs
    have hrest := extends_numberChildren children
      (s.inodeMap.getOrAssignIno (s.filesystem.parentId d)).2
    have hnumber := s.inodeMap.getNodeId_getOrAssignIno (s.filesystem.parentId d)
    refine ⟨rfl, hparent.trans hrest, List.forall₂_drop offset ?_, ?_⟩
    · refine .cons rfl (.cons ⟨⟨_, hrest.kept hb _ _ hnumber⟩, rfl⟩ ?_)
      exact forall₂_numberChildren hb ino children (by decide)
    · unfold Numbered
      rw [List.map_drop, List.zipIdx_map_snd, List.drop_range', List.length_drop,
        List.length_zipIdx, Nat.mul_one, Nat.add_comm]

variable [UuidV5] [Sha256] [FastCdc]

/-! ### Reading a directory -/

/-- A reader of a directory: where it is, and what has been returned to it. -/
structure DirectoryReader (PeerId : Type) [CrdtTree PeerId] where
  fuse : FuseFileSystem PeerId
  offset : ℕ
  returned : List (DirectoryEntry × ℕ)

/-- What happens while a directory is read: the next request, with the number of entries that the
reply takes at most, or anything else. -/
inductive ReaderEvent (PeerId : Type)
  | page (k : ℕ)
  | other (e : FuseEvent PeerId)

namespace DirectoryReader

/-- A reader that begins. -/
def start (s : FuseFileSystem PeerId) : DirectoryReader PeerId := ⟨s, 0, []⟩

/-- The reader's next offset is the one attached to the last entry that the reply has taken. A
request that fails ends the reading. -/
def readerStep (ino : INodeNo) :
    ReaderEvent PeerId → DirectoryReader PeerId → Option (DirectoryReader PeerId)
  | .page k, p =>
    match p.fuse.readdir ino p.offset with
    | (.error _, _) => none
    | (.ok reply, s) =>
      let accepted := reply.take k
      some ⟨s, (accepted.getLast?.map Prod.snd).getD p.offset, p.returned ++ accepted⟩
  | .other e, p => (fuseStep e p.fuse).map fun s => { p with fuse := s }

/-- The entry has been returned exactly once. -/
def Once (p : DirectoryReader PeerId) (n : NodeId) (name : String) : Prop :=
  (p.returned.countP fun r => ShowsChild p.fuse.inodeMap n name r) = 1

instance (p : DirectoryReader PeerId) (n : NodeId) (name : String) : Decidable (p.Once n name) :=
  inferInstanceAs (Decidable (_ = _))

/-- How often the slot is listed before the reader's offset. -/
def before (p : DirectoryReader PeerId) (d : NodeId) (x : Slot) : ℕ :=
  ((slots p.fuse.filesystem d).take p.offset).count x

/-- How often the changes of a run bring a slot before the reader's offset, less how often they
bring it behind. -/
def shift (ino : INodeNo) (d : NodeId) (x : Slot) :
    List (ReaderEvent PeerId) → DirectoryReader PeerId → ℤ
  | [], _ => 0
  | .page k :: events, p => ((readerStep ino (.page k) p).map (shift ino d x events)).getD 0
  | .other e :: events, p =>
    ((readerStep ino (.other e) p).map fun q =>
      (q.before d x : ℤ) - p.before d x + shift ino d x events q).getD 0

/-- What happens between the requests leaves every entry that stays on its side of the offset. -/
def StepSteady (d : NodeId) : ReaderEvent PeerId → DirectoryReader PeerId → Prop
  | .page _, _ => True
  | .other e, p => ∀ s, fuseStep e p.fuse = some s →
      Steady p.offset (slots p.fuse.filesystem d) (slots s.filesystem d)

/-- What every run of a reader keeps. -/
structure Inv (ino : INodeNo) (d : NodeId) (p : DirectoryReader PeerId) : Prop where
  bounded : p.fuse.inodeMap.Bounded
  directory : p.fuse.inodeMap.getNodeId ino = some d
  shown : ∀ r ∈ p.returned, ∃ slot, ShowsAt p.fuse.inodeMap ino slot r
  numbered : Numbered 0 p.returned
  offset : p.offset = p.returned.length

variable {ino : INodeNo} {d : NodeId} {p q : DirectoryReader PeerId}

omit [UuidV5] [Sha256] [FastCdc] in
/-- Numbers given out later change nothing of what has been returned. -/
theorem Inv.countP_extends (h : p.Inv ino d) {m : INodeMap} (hm : p.fuse.inodeMap.Extends m)
    (n : NodeId) (name : String) :
    (p.returned.countP fun r => ShowsChild m n name r)
      = p.returned.countP fun r => ShowsChild p.fuse.inodeMap n name r := by
  refine List.countP_congr fun r hr => ?_
  obtain ⟨slot, hslot⟩ := h.shown r hr
  simp only [decide_eq_true_eq]
  rw [hslot.showsChild_iff, (hslot.extends h.bounded hm).showsChild_iff]

/-- What one request does: the tables of the reader, and the entries it has got. -/
theorem Inv.step_page (h : p.Inv ino d) {k : ℕ} (hstep : readerStep ino (.page k) p = some q) :
    q.Inv ino d ∧ ∀ n name,
      (q.returned.countP fun r => ShowsChild q.fuse.inodeMap n name r) + p.before d (.child n name)
        = (p.returned.countP fun r => ShowsChild p.fuse.inodeMap n name r)
          + q.before d (.child n name) := by
  unfold readerStep at hstep
  rcases hread : p.fuse.readdir ino p.offset with ⟨⟨e⟩ | ⟨reply⟩, s⟩
  · simp [hread] at hstep
  · simp only [hread] at hstep
    cases hstep
    obtain ⟨hfs, hext, hshows, hnumbered⟩ := readdir_ok h.bounded h.directory hread
    have hpage := List.forall₂_take k hshows
    have hnext := (hnumbered.take k).next
    have hlen := hpage.length_eq
    refine ⟨⟨hext.bounded h.bounded, hext.kept h.bounded _ _ h.directory, ?_, ?_, ?_⟩, ?_⟩
    · intro r hr
      rcases List.mem_append.1 hr with hr | hr
      · obtain ⟨slot, hslot⟩ := h.shown r hr
        exact ⟨slot, hslot.extends h.bounded hext⟩
      · exact exists_slot hpage hr
    · refine h.numbered.append ?_
      rw [Nat.zero_add, ← h.offset]
      exact hnumbered.take k
    · rw [hnext, List.length_append, h.offset]
    · intro n name
      unfold before
      dsimp only
      rw [List.countP_append, h.countP_extends hext, countP_showsChild hpage, hnext, hfs, ← hlen,
        count_take_page]
      omega

theorem Inv.step_other (h : p.Inv ino d) {e : FuseEvent PeerId}
    (hstep : readerStep ino (.other e) p = some q) :
    q.Inv ino d ∧ ∀ n name, (q.returned.countP fun r => ShowsChild q.fuse.inodeMap n name r)
      = p.returned.countP fun r => ShowsChild p.fuse.inodeMap n name r := by
  obtain ⟨s, hs, rfl⟩ := Option.map_eq_some_iff.1 hstep
  have hext := inodeMap_step hs
  refine ⟨⟨hext.bounded h.bounded, hext.kept h.bounded _ _ h.directory, fun r hr => ?_,
    h.numbered, h.offset⟩, h.countP_extends hext⟩
  obtain ⟨slot, hslot⟩ := h.shown r hr
  exact ⟨slot, hslot.extends h.bounded hext⟩

/-- **What a run returns of an entry**: what stands of it before the offset, less what changes have
brought there. -/
theorem Inv.run (h : p.Inv ino d) {events : List (ReaderEvent PeerId)}
    (hrun : run (readerStep ino) events p = some q) :
    q.Inv ino d ∧ ∀ n name,
      ((q.returned.countP fun r => ShowsChild q.fuse.inodeMap n name r : ℕ) : ℤ)
          - q.before d (.child n name) + shift ino d (.child n name) events p
        = (p.returned.countP fun r => ShowsChild p.fuse.inodeMap n name r : ℕ)
          - p.before d (.child n name) := by
  induction events generalizing p with
  | nil =>
    cases hrun
    exact ⟨h, fun n name => by simp [shift]⟩
  | cons e events ih =>
    rw [run_cons, Option.bind_eq_some_iff] at hrun
    obtain ⟨p', hstep, hrun⟩ := hrun
    cases e with
    | page k =>
      obtain ⟨h', hcount⟩ := h.step_page hstep
      obtain ⟨hq, hrest⟩ := ih h' hrun
      refine ⟨hq, fun n name => ?_⟩
      have hone := hcount n name
      have hall := hrest n name
      rw [shift, hstep]
      simp only [Option.map_some, Option.getD_some]
      omega
    | other e =>
      obtain ⟨h', hcount⟩ := h.step_other hstep
      obtain ⟨hq, hrest⟩ := ih h' hrun
      refine ⟨hq, fun n name => ?_⟩
      have hone := hcount n name
      have hall := hrest n name
      rw [shift, hstep]
      simp only [Option.map_some, Option.getD_some]
      omega

/-- Changes that leave an entry on its side of the offset do not shift it. -/
theorem shift_eq_zero [LinearOrder PeerId] [LawfulCrdtTree PeerId] {n : NodeId} {name : String}
    {events : List (ReaderEvent PeerId)} (hrun : run (readerStep ino) events p = some q)
    (hsteady : Meets (readerStep ino) (StepSteady d) events p)
    (hstays : Meets (readerStep ino) (fun _ p => Listed d n name p.fuse.filesystem) events p)
    (hq : Listed d n name q.fuse.filesystem) :
    shift ino d (.child n name) events p = 0 := by
  induction events generalizing p with
  | nil => rfl
  | cons e events ih =>
    rw [run_cons, Option.bind_eq_some_iff] at hrun
    obtain ⟨p', hstep, hrun⟩ := hrun
    obtain ⟨hhere, hsteady⟩ := hsteady
    obtain ⟨hlisted, hstays⟩ := hstays
    have hrest := ih hrun (hsteady p' hstep) (hstays p' hstep)
    cases e with
    | page k => rw [shift, hstep, Option.map_some, Option.getD_some, hrest]
    | other e =>
      have hlisted' : Listed d n name p'.fuse.filesystem := by
        cases events with
        | nil =>
          cases hrun
          exact hq
        | cons e' events => exact (hstays p' hstep).1
      rw [shift, hstep, Option.map_some, Option.getD_some, hrest]
      obtain ⟨s, hs, rfl⟩ := Option.map_eq_some_iff.1 hstep
      have hcount := (hhere s hs).count_take_eq (slots_nodup _ d) (slots_nodup _ d) hlisted hlisted'
      unfold before
      rw [hcount]
      omega

omit [UuidV5] [Sha256] [FastCdc] in
/-- At the end of a reading everything in the directory stands before the offset. -/
theorem Inv.before_end [LinearOrder PeerId] [LawfulCrdtTree PeerId] (h : p.Inv ino d)
    (hend : (p.fuse.readdir ino p.offset).1 = .ok []) :
    2 ≤ p.offset ∧ ∀ n name, Listed d n name p.fuse.filesystem →
      p.before d (.child n name) = 1 := by
  rcases hread : p.fuse.readdir ino p.offset with ⟨r, s⟩
  rw [hread] at hend
  obtain rfl : r = .ok [] := hend
  obtain ⟨-, -, hshows, -⟩ := readdir_ok h.bounded h.directory hread
  have hnil : (slots p.fuse.filesystem d).drop p.offset = [] :=
    List.length_eq_zero_iff.1 hshows.length_eq
  constructor
  · have hle := List.drop_eq_nil_iff.1 hnil
    unfold readdir inoToNodeId at hread
    unfold slots at hle
    rw [h.directory] at hread
    cases hlist : p.fuse.filesystem.listDirectory d with
    | error e => simp [hlist] at hread
    | ok entries =>
      rw [hlist] at hle
      simp only [List.length_cons] at hle
      omega
  · intro n name hlisted
    exact count_take_end (slots_nodup _ d) hnil hlisted

omit [UuidV5] [Sha256] [FastCdc] in
/-- The two dots are returned once, whatever changes. -/
theorem Inv.dots (h : p.Inv ino d) (hend : 2 ≤ p.offset) :
    p.returned.filter (fun r => r.2 = 1) = [(⟨ino, .directory, "."⟩, 1)] ∧
      ∃ parentIno, p.returned.filter (fun r => r.2 = 2)
        = [(⟨parentIno, .directory, ".."⟩, 2)] := by
  have hnumbered := h.numbered
  have hshown := h.shown
  rw [h.offset] at hend
  obtain ⟨r₁, r₂, rest, hreturned⟩ : ∃ r₁ r₂ rest, p.returned = r₁ :: r₂ :: rest :=
    match hp : p.returned with
    | r₁ :: r₂ :: rest => ⟨r₁, r₂, rest, rfl⟩
    | [_] => absurd hend (by simp [hp])
    | [] => absurd hend (by simp [hp])
  rw [hreturned] at hnumbered hshown ⊢
  simp only [Numbered, List.map_cons, List.length_cons, List.range'_succ, List.cons.injEq]
    at hnumbered
  obtain ⟨h₁, h₂, hrest⟩ := hnumbered
  have hlate : ∀ r ∈ rest, 2 < r.2 := fun r hr => by
    have hmem := List.mem_map_of_mem (f := Prod.snd) hr
    rw [hrest, List.mem_range'_1] at hmem
    omega
  have hskip : ∀ j ≤ 2, rest.filter (fun r => r.2 = j) = [] := fun j hj =>
    List.filter_eq_nil_iff.2 fun r hr => by
      have := hlate r hr
      simp only [decide_eq_true_eq]
      omega
  obtain ⟨slot₁, hslot₁⟩ := hshown r₁ (by simp)
  obtain ⟨slot₂, hslot₂⟩ := hshown r₂ (by simp)
  constructor
  · have hr₁ : r₁ = (⟨ino, .directory, "."⟩, 1) := by
      cases slot₁ with
      | self => exact hslot₁
      | parent => exact absurd (congrArg Prod.snd hslot₁.2) (by omega)
      | child n name => exact absurd hslot₁.1 (by omega)
    rw [List.filter_cons_of_pos (by simp [h₁]), List.filter_cons_of_neg (by simp [h₂]),
      hskip 1 (by decide), hr₁]
  · have hr₂ : r₂ = (⟨r₂.1.ino, .directory, ".."⟩, 2) := by
      cases slot₂ with
      | self => exact absurd (congrArg Prod.snd hslot₂) (by omega)
      | parent => exact hslot₂.2
      | child n name => exact absurd hslot₂.1 (by omega)
    refine ⟨r₂.1.ino, ?_⟩
    rw [List.filter_cons_of_neg (by simp [h₁]), List.filter_cons_of_pos (by simp [h₂]),
      hskip 2 le_rfl, ← hr₂]

omit [UuidV5] [Sha256] [FastCdc] in
theorem inv_start {s : FuseFileSystem PeerId} (hs : s.inodeMap.Bounded)
    (hino : s.inodeMap.getNodeId ino = some d) : (start s).Inv ino d :=
  ⟨hs, hino, fun _ hr => absurd hr List.not_mem_nil, rfl, rfl⟩

/-- **What a reader gets of a directory**, in every sequence of `readdir` requests that starts at
offset zero and goes on until one returns nothing, with anything else between them. The two dots
come exactly once. An entry that is in the directory throughout comes exactly once if and only if
the changes have brought it before the reader's offset as often as behind it; so all of them do when
every change leaves the entries that stay on their side of the offset. -/
theorem listing_once_iff [LinearOrder PeerId] [LawfulCrdtTree PeerId] {fs : FileSystem PeerId}
    {before : List (FuseEvent PeerId)} {s : FuseFileSystem PeerId}
    (hbefore : run fuseStep before (.new fs) = some s)
    (hino : s.inodeMap.getNodeId ino = some d) {events : List (ReaderEvent PeerId)}
    (hrun : run (readerStep ino) events (start s) = some p)
    (hend : (p.fuse.readdir ino p.offset).1 = .ok []) :
    (p.returned.filter (fun r => r.2 = 1) = [(⟨ino, .directory, "."⟩, 1)] ∧
      ∃ parentIno, p.returned.filter (fun r => r.2 = 2)
        = [(⟨parentIno, .directory, ".."⟩, 2)]) ∧
      ∀ n name,
        Meets (readerStep ino) (fun _ q => Listed d n name q.fuse.filesystem) events (start s) →
        Listed d n name p.fuse.filesystem →
          (p.Once n name ↔ shift ino d (.child n name) events (start s) = 0) ∧
          (Meets (readerStep ino) (StepSteady d) events (start s) → p.Once n name) := by
  have hbounded := (inodeMap_run hbefore).bounded INodeMap.bounded_new
  obtain ⟨hinv, hcount⟩ := (inv_start hbounded hino).run hrun
  obtain ⟨htwo, hall⟩ := hinv.before_end hend
  refine ⟨hinv.dots htwo, fun n name hstays hlisted => ?_⟩
  have hiff : p.Once n name ↔ shift ino d (.child n name) events (start s) = 0 := by
    have hzero := hcount n name
    rw [hall n name hlisted] at hzero
    have hstart : (start s).before d (.child n name) = 0 := rfl
    have hnone : ((start s).returned.countP fun r =>
      ShowsChild (start s).fuse.inodeMap n name r) = 0 := rfl
    rw [hstart, hnone] at hzero
    unfold Once
    omega
  exact ⟨hiff, fun hsteady => hiff.2 (shift_eq_zero hrun hsteady hstays hlisted)⟩

end DirectoryReader

end Edfs.FuseFileSystem

namespace Edfs.FuseFileSystem.DirectoryReader

open Execution FileSystem Reference
open ReplicaWorld (inRoot)

/-- Two files are made in the root. -/
def twoFiles : List (FuseEvent ℕ) :=
  [.request (.create 1 INodeNo.root "a"), .request (.create 2 INodeNo.root "b")]

/-- A third comes after the first request. -/
def thirdCreated : List (ReaderEvent ℕ) :=
  [.page 1, .other (.request (.create 3 INodeNo.root "c")), .page 3, .page 3]

theorem listing_once_iff_created :
    ∃ s p, run fuseStep twoFiles (.new (init 0 100)) = some s ∧
      run (readerStep INodeNo.root) thirdCreated (start s) = some p ∧ p.Once (inRoot "a") "a" := by
  obtain ⟨s, hs⟩ : ∃ s, run fuseStep twoFiles (.new (init 0 100)) = some s := ⟨_, rfl⟩
  obtain ⟨p, hp⟩ : ∃ p, run (readerStep INodeNo.root) thirdCreated (start s) = some p := by
    cases hs
    exact ⟨_, rfl⟩
  refine ⟨s, p, hs, hp, ?_⟩
  have hino : s.inodeMap.getNodeId INodeNo.root = some NodeId.root := by
    cases hs
    rfl
  have hend : (p.fuse.readdir INodeNo.root p.offset).1 = .ok [] := by
    cases hs
    cases hp
    rfl
  obtain ⟨-, hentries⟩ := listing_once_iff hs hino hp hend
  refine (hentries (inRoot "a") "a" ?_ ?_).2 ?_
  · cases hs
    decide
  · cases hs
    cases hp
    decide
  · cases hs
    refine ⟨trivial, fun p₁ h₁ => ⟨fun t ht => ?_, fun _ _ => ⟨trivial, fun _ _ => ⟨trivial,
      fun _ _ => trivial⟩⟩⟩⟩
    cases h₁
    cases ht
    decide

/-- The first file returned is deleted. -/
def firstDeleted : List (ReaderEvent ℕ) :=
  [.page 3, .other (.request (.unlink 3 INodeNo.root "b"))]

/-- Then the request from offset 3 returns nothing, and the other file is never returned. -/
theorem listing_misses :
    ∃ s p, run fuseStep twoFiles (.new (init 0 100)) = some s ∧
      s.inodeMap.getNodeId INodeNo.root = some NodeId.root ∧
      run (readerStep INodeNo.root) firstDeleted (start s) = some p ∧
      (p.fuse.readdir INodeNo.root p.offset).1 = .ok [] ∧
      Meets (readerStep INodeNo.root)
        (fun _ q => Listed NodeId.root (inRoot "a") "a" q.fuse.filesystem) firstDeleted (start s) ∧
      Listed NodeId.root (inRoot "a") "a" p.fuse.filesystem ∧ ¬ p.Once (inRoot "a") "a" :=
  ⟨_, _, rfl, rfl, rfl, rfl, by decide, by decide, by decide⟩

end Edfs.FuseFileSystem.DirectoryReader
