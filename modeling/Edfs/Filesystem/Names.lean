import Edfs.Filesystem.Replicas

/-!
# Names over replicas

A call looks whether a name is free on its own replica. Replaying operations looks at no names, so
what others have issued meanwhile can put a second node at a name.

* `HasName`, a node of a directory has a name; `childId_eq_ok_iff`, `childId_eq_childId`: a name
  that one node has resolves to that, and alike in equal trees;
* `issued_order`: of two operations of a run one is issued when the other has been;
* `Crossed`, two operations to one name of which the later has been issued where the other was not
  in force; `crossed_of_hasName`: there is no other way to two nodes of one name;
* `names_unique`, and `two_of_one_name`, a run in which two renames cross.
-/

namespace Edfs

open Execution

namespace FileSystem

variable {PeerId : Type} [CrdtTree PeerId]

/-- The node hangs under `d` and has the name. -/
def HasName (fs : FileSystem PeerId) (d : NodeId) (name : String) (n : NodeId) : Prop :=
  ∃ m, fs.tree.find n = some ⟨d, m⟩ ∧ m.name = name

/-- At most one node of `d` has the name. -/
def HeldOnce (fs : FileSystem PeerId) (d : NodeId) (name : String) : Prop :=
  ∀ x y, fs.HasName d name x → fs.HasName d name y → x = y

theorem NamesDiffer.heldOnce {fs : FileSystem PeerId} (h : fs.NamesDiffer) {d : NodeId}
    (hd : d ≠ NodeId.trash) (name : String) : fs.HeldOnce d name := by
  rintro x y ⟨m, hx, hm⟩ ⟨m', hy, hm'⟩
  exact h d hd x y m m' hx hy (hm.trans hm'.symm)

theorem childId_error {fs : FileSystem PeerId} {d : NodeId} {name : String} {e : FileSystemError}
    (h : fs.childId d name = .error e) : e = .notFound := by
  unfold childId NodeTree.children at h
  split_ifs at h
  · cases h
    rfl
  · dsimp only at h
    split at h
    · cases h
    · cases h
      rfl

theorem known_of_childId {fs : FileSystem PeerId} {d n : NodeId} {name : String}
    (h : fs.childId d name = .ok n) : fs.Known d := by
  unfold childId NodeTree.children at h
  split_ifs at h with hd
  · rw [not_and_or] at hd
    rcases hd with hd | hd
    · exact Or.inl (by simpa using hd)
    · exact Or.inr (Option.ne_none_iff_exists'.1 hd)

/-- Looking up fails in one way only, so what it finds says all. -/
theorem childId_ext {fs fs' : FileSystem PeerId} {d : NodeId} {x : String}
    (h : ∀ c, fs'.childId d x = .ok c ↔ fs.childId d x = .ok c) :
    fs'.childId d x = fs.childId d x := by
  cases hc : fs.childId d x with
  | ok c => exact (h c).2 hc
  | error e =>
    cases hc' : fs'.childId d x with
    | ok c => exact absurd ((h c).1 hc') (by simp [hc])
    | error e' => rw [childId_error hc, childId_error hc']

variable [LinearOrder PeerId] [LawfulCrdtTree PeerId]

/-- A name that one child has resolves to that child. -/
theorem childId_eq_ok_iff {fs : FileSystem PeerId} {d c : NodeId} {x : String}
    (h : fs.HeldOnce d x) : fs.childId d x = .ok c ↔ fs.Known d ∧ fs.HasName d x c := by
  constructor
  · intro hc
    exact ⟨known_of_childId hc, find_of_childId hc⟩
  · rintro ⟨hknown, m, hm, rfl⟩
    exact childId_eq hknown hm fun n' m' hn' hname => h n' c ⟨m', hn', hname⟩ ⟨m, hm, rfl⟩

/-- In equal trees such a name resolves alike. -/
theorem childId_eq_childId {fs fs' : FileSystem PeerId} (hfind : fs'.tree.find = fs.tree.find)
    {d : NodeId} {name : String} (h : fs.HeldOnce d name) :
    fs'.childId d name = fs.childId d name := by
  have hsame : ∀ n, fs'.HasName d name n ↔ fs.HasName d name n := fun n => by
    unfold HasName
    rw [hfind]
  have h' : fs'.HeldOnce d name := fun x y hx hy => h x y ((hsame x).1 hx) ((hsame y).1 hy)
  refine childId_ext fun c => ?_
  rw [childId_eq_ok_iff h', childId_eq_ok_iff h, hsame]
  unfold Known
  rw [hfind]

variable [UuidV5] [Sha256] [FastCdc]

omit [LinearOrder PeerId] [LawfulCrdtTree PeerId] in
/-- What a call reports is the one move it issues, if it issues one. -/
theorem emitted_cases (e : Event PeerId) (fs : FileSystem PeerId) :
    emitted e fs = [] ∨ ∃ n p m, fs.Issues e.2.target n p m ∧
      emitted e fs = [(fs.tree.issue (e.1 0) n p m).1] := by
  obtain ⟨now, call⟩ := e
  cases call with
  | mutate c =>
    have hstep : callStep (now, .mutate c) fs = some (fs.mutate (now 0) c).2 := rfl
    rcases tree_step hstep with ⟨-, h⟩ | ⟨n, p, m, hi, h, -⟩ | ⟨ops, h, -⟩
    · exact Or.inl h
    · exact Or.inr ⟨n, p, m, hi, h⟩
    · cases h
  | _ => exact Or.inl rfl

omit [LinearOrder PeerId] [LawfulCrdtTree PeerId] in
theorem eq_of_mem_emitted {e : Event PeerId} {fs : FileSystem PeerId} {u v : NodeOperation PeerId}
    (hu : u ∈ emitted e fs) (hv : v ∈ emitted e fs) : u = v := by
  rcases emitted_cases e fs with h | ⟨n, p, m, -, h⟩
  · rw [h] at hu
    exact absurd hu List.not_mem_nil
  · rw [h, List.mem_singleton] at hu hv
    rw [hu, hv]

end FileSystem

/-- An operation that puts the node at the name. -/
def Places {PeerId : Type} (op : NodeOperation PeerId) (d : NodeId) (name : String) (n : NodeId) :
    Prop :=
  op.child = n ∧ op.parent = d ∧ op.metadata.name = name

namespace ReplicaWorld

variable {PeerId : Type} [CrdtTree PeerId] [LinearOrder PeerId] [UuidV5] [Sha256] [FastCdc]

/-- In a run, a call on the replica `q` in the state `w` has issued the operation. -/
def IssuedIn (start : ReplicaWorld PeerId) (events : List (ReplicaEvent PeerId))
    (op : NodeOperation PeerId) (q : PeerId) (w : ReplicaWorld PeerId) : Prop :=
  ∃ before call after, events = before ++ (q, call) :: after ∧
    run replicaStep before start = some w ∧ op ∈ FileSystem.emitted call (w.replicas q)

/-- How `y` has come to a name that `x` has, by the end of a run or before it. On some replica
operations `u` and `v` that put the two at the name are in force; and `v` has been issued after
`u`, on a replica that did not know the directory or on which `u` was not in force. -/
def Crossed (start : ReplicaWorld PeerId) (events : List (ReplicaEvent PeerId)) (d : NodeId)
    (name : String) (x y : NodeId) : Prop :=
  ∃ first r w u v, first <+: events ∧ run replicaStep first start = some w ∧
    (Places u d name x ∧ MoveTree.InForce (w.log r) u) ∧
    (Places v d name y ∧ MoveTree.InForce (w.log r) v) ∧
    ∃ q w₀, IssuedIn start first v q w₀ ∧ u ∈ w₀.issued ∧
      (¬ (w₀.replicas q).Known d ∨ ¬ MoveTree.InForce (w₀.log q) u)

variable {start w : ReplicaWorld PeerId} {events : List (ReplicaEvent PeerId)}

theorem IssuedIn.append {op : NodeOperation PeerId} {q : PeerId}
    (h : IssuedIn start events op q w) (more : List (ReplicaEvent PeerId)) :
    IssuedIn start (events ++ more) op q w := by
  obtain ⟨before, call, after, rfl, hrun, hop⟩ := h
  exact ⟨before, call, after ++ more, by simp, hrun, hop⟩

theorem Crossed.mono {first : List (ReplicaEvent PeerId)} {d : NodeId} {name : String}
    {x y : NodeId} (hfirst : first <+: events) (h : Crossed start first d name x y) :
    Crossed start events d name x y := by
  obtain ⟨first', r, w, u, v, hprefix, h⟩ := h
  exact ⟨first', r, w, u, v, hprefix.trans hfirst, h⟩

/-- Of two operations that a run has issued, one has been issued when the other had been. -/
theorem issued_order (hstart : start.issued = []) (hrun : run replicaStep events start = some w)
    {u v : NodeOperation PeerId} (hu : u ∈ w.issued) (hv : v ∈ w.issued) (hne : u ≠ v) :
    (∃ q w₀, IssuedIn start events v q w₀ ∧ u ∈ w₀.issued) ∨
      ∃ q w₀, IssuedIn start events u q w₀ ∧ v ∈ w₀.issued := by
  refine run_rec (P := fun events w => u ∈ w.issued → v ∈ w.issued →
    (∃ q w₀, IssuedIn start events v q w₀ ∧ u ∈ w₀.issued) ∨
      ∃ q w₀, IssuedIn start events u q w₀ ∧ v ∈ w₀.issued) ?_ ?_ hrun hu hv
  · intro hu
    rw [hstart] at hu
    exact absurd hu List.not_mem_nil
  · rintro events w ⟨p, call⟩ w' hrun ih hstep hu hv
    obtain ⟨-, fs, -, rfl⟩ := replicaStep_eq_some hstep
    have last : ∀ op ∈ FileSystem.emitted call (w.replicas p),
        IssuedIn start (events ++ [(p, call)]) op p w := fun op hop =>
      ⟨events, call, [], rfl, hrun, hop⟩
    rcases List.mem_append.1 hu with hu | hu <;> rcases List.mem_append.1 hv with hv | hv
    · exact absurd (FileSystem.eq_of_mem_emitted hu hv) hne
    · exact Or.inr ⟨p, w, last u hu, hv⟩
    · exact Or.inl ⟨p, w, last v hv, hu⟩
    · refine (ih hu hv).imp ?_ ?_ <;> rintro ⟨q, w₀, hissued, hmem⟩
      · exact ⟨q, w₀, hissued.append _, hmem⟩
      · exact ⟨q, w₀, hissued.append _, hmem⟩

omit [UuidV5] [Sha256] [FastCdc] in
/-- A node is at a name as long as an operation to it is in force. -/
theorem hasName_iff_inForce (h : w.Inv) {p : PeerId} {d n : NodeId} {name : String} :
    (w.replicas p).HasName d name n ↔
      ∃ op, Places op d name n ∧ MoveTree.InForce (w.log p) op := by
  constructor
  · rintro ⟨m, hm, rfl⟩
    obtain ⟨op, hforce, rfl, heq⟩ := MoveTree.Coherent.exists_inForce (h.sound p) hm
    obtain ⟨rfl, rfl⟩ := MoveTree.Node.mk.inj heq
    exact ⟨op, ⟨rfl, rfl, rfl⟩, hforce⟩
  · rintro ⟨op, ⟨rfl, rfl, rfl⟩, hforce⟩
    exact ⟨op.metadata, MoveTree.Coherent.tree_inForce (h.sound p) hforce, rfl⟩

variable [LawfulCrdtTree PeerId]

/-- A replica that knows a directory and the node at one of its names issues an operation of
another node to the name only if that node is there already. -/
theorem hasName_of_issued {q : PeerId} {e : Event PeerId} {d x y : NodeId} {name : String}
    {v : NodeOperation PeerId} (hd : d ≠ NodeId.trash)
    (hv : v ∈ FileSystem.emitted e (w.replicas q)) (hplaces : Places v d name y)
    (hknown : (w.replicas q).Known d) (hx : (w.replicas q).HasName d name x) :
    (w.replicas q).HasName d name y := by
  obtain ⟨rfl, rfl, rfl⟩ := hplaces
  obtain ⟨m', hm', hname⟩ := hx
  rcases FileSystem.emitted_cases e (w.replicas q) with h | ⟨n, p, m, hi, h⟩
  · rw [h] at hv
    exact absurd hv List.not_mem_nil
  · rw [h, List.mem_singleton] at hv
    subst hv
    exact hi.stays (fun _ => hknown) hd hm' hname

variable [LawfulUuidV5]

/-- **Two nodes come to one name only by operations that cross**, which is by induction on the
run: where the later one has been issued with the other in force, both nodes were there before. -/
theorem crossed_of_hasName {maxPinnedBytes : PeerId → ℕ}
    (hrun : run replicaStep events (init maxPinnedBytes) = some w) {p : PeerId} {d x y : NodeId}
    {name : String} (hd : d ≠ NodeId.trash) (hx : (w.replicas p).HasName d name x)
    (hy : (w.replicas p).HasName d name y) (hne : x ≠ y) :
    Crossed (init maxPinnedBytes) events d name x y ∨
      Crossed (init maxPinnedBytes) events d name y x := by
  induction hlen : events.length using Nat.strong_induction_on generalizing events w p x y with
  | _ len ih =>
    subst hlen
    have hinv := inv_run hrun
    -- the later of the two operations is that of the second node
    have later : ∀ {x y : NodeId} {u v : NodeOperation PeerId} {q : PeerId}
        {w₀ : ReplicaWorld PeerId}, x ≠ y → Places u d name x → MoveTree.InForce (w.log p) u →
        Places v d name y → MoveTree.InForce (w.log p) v →
        IssuedIn (init maxPinnedBytes) events v q w₀ → u ∈ w₀.issued →
        Crossed (init maxPinnedBytes) events d name x y ∨
          Crossed (init maxPinnedBytes) events d name y x := by
      intro x y u v q w₀ hne hu huforce hv hvforce hissued hmem
      by_cases hknows : (w₀.replicas q).Known d ∧ MoveTree.InForce (w₀.log q) u
      · obtain ⟨before, call, after, rfl, hrun₀, hop⟩ := hissued
        have hinv₀ := inv_run hrun₀
        have hx₀ := (hasName_iff_inForce hinv₀).2 ⟨u, hu, hknows.2⟩
        have hy₀ := hasName_of_issued hd hop hv hknows.1 hx₀
        have hshort : before.length < (before ++ (q, call) :: after).length := by simp
        exact (ih _ hshort hrun₀ hx₀ hy₀ hne rfl).imp (Crossed.mono (List.prefix_append _ _))
          (Crossed.mono (List.prefix_append _ _))
      · exact Or.inl ⟨events, p, w, u, v, List.prefix_rfl, hrun, ⟨hu, huforce⟩, ⟨hv, hvforce⟩, q,
          w₀, hissued, hmem, not_and_or.1 hknows⟩
    obtain ⟨u, hu, huforce⟩ := (hasName_iff_inForce hinv).1 hx
    obtain ⟨v, hv, hvforce⟩ := (hasName_iff_inForce hinv).1 hy
    have huv : u ≠ v := by
      rintro rfl
      exact hne (hu.1.symm.trans hv.1)
    have huissued := hinv.logged p u huforce.1.1
    have hvissued := hinv.logged p v hvforce.1.1
    rcases issued_order rfl hrun huissued hvissued huv with
      ⟨q, w₀, hissued, hmem⟩ | ⟨q, w₀, hissued, hmem⟩
    · exact later hne hu huforce hv hvforce hissued hmem
    · exact (later hne.symm hv hvforce hu huforce hissued hmem).symm

/-- **Names are unique but for operations that cross.** In every state of every run, a name that
one child of a directory has resolves to that child, and alike on replicas with the same
operations; and two children of a directory other than the trash have one name only if they have
come to it by operations of which the later has been issued where the other was not in force. -/
theorem names_unique {maxPinnedBytes : PeerId → ℕ}
    (hrun : run replicaStep events (init maxPinnedBytes) = some w) (p : PeerId) {d : NodeId}
    (hd : d ≠ NodeId.trash) (name : String) :
    ((w.replicas p).HeldOnce d name →
      (∀ n, (w.replicas p).Known d → (w.replicas p).HasName d name n →
        (w.replicas p).childId d name = .ok n) ∧
      ∀ q, (∀ op, op ∈ w.log p ↔ op ∈ w.log q) →
        (w.replicas q).childId d name = (w.replicas p).childId d name) ∧
    ∀ x y, (w.replicas p).HasName d name x → (w.replicas p).HasName d name y → x ≠ y →
      Crossed (init maxPinnedBytes) events d name x y ∨
        Crossed (init maxPinnedBytes) events d name y x := by
  refine ⟨fun honce => ⟨fun n hknown hn => ?_, fun q hlogs => ?_⟩, fun x y => ?_⟩
  · exact (FileSystem.childId_eq_ok_iff honce).2 ⟨hknown, hn⟩
  · refine FileSystem.childId_eq_childId ?_ honce
    rw [NodeTree.find_eq, NodeTree.find_eq, (inv_run hrun).state_eq hlogs]
  · exact crossed_of_hasName hrun hd

end ReplicaWorld

end Edfs

namespace Edfs.ReplicaWorld

open Execution Reference

/-- The operation that creates the file "a". -/
def createdFirst : NodeOperation ℕ :=
  ⟨⟨2 ^ 16, 0⟩, NodeId.root, .regularFile "a" 0 [], inRoot "a"⟩

/-- The operation that creates the file "b". -/
def createdSecond : NodeOperation ℕ :=
  ⟨⟨2 ^ 17, 0⟩, NodeId.root, .regularFile "b" 0 [], inRoot "b"⟩

/-- Replica 1 gets the files that replica 0 creates. -/
def passedOn : List (ReplicaEvent ℕ) :=
  [(0, fun _ => 1, .mutate (.createFile NodeId.root "a")),
    (0, fun _ => 2, .mutate (.createFile NodeId.root "b")),
    (1, fun _ => 2, .applyOperations [createdFirst, createdSecond])]

/-- The operation that renames "b" to "c" on replica 1. -/
def renamedSecond : NodeOperation ℕ :=
  ⟨⟨3 * 2 ^ 16, 1⟩, NodeId.root, .regularFile "c" 0 [], inRoot "b"⟩

/-- Each replica renames one of the files to "c", and replica 0 gets the other's operation. -/
def crossed : List (ReplicaEvent ℕ) :=
  passedOn ++
    [(0, fun _ => 3, .mutate (.rename NodeId.root "a" NodeId.root "c")),
      (1, fun _ => 3, .mutate (.rename NodeId.root "b" NodeId.root "c")),
      (0, fun _ => 3, .applyOperations [renamedSecond])]

/-- The new name has come to both files by renames that have crossed. Before that, a name in the
root has resolved alike on both replicas. -/
theorem names_unique_crossed :
    (∃ w, run replicaStep passedOn (init fun _ => 100) = some w ∧
      (w.replicas 1).childId NodeId.root "b" = (w.replicas 0).childId NodeId.root "b") ∧
    ∃ w, run replicaStep crossed (init fun _ => 100) = some w ∧
      (Crossed (init fun _ => 100) crossed NodeId.root "c" (inRoot "a") (inRoot "b") ∨
        Crossed (init fun _ => 100) crossed NodeId.root "c" (inRoot "b") (inRoot "a")) := by
  obtain ⟨w, hpassed, hlogs⟩ : ∃ w, run replicaStep passedOn (init fun _ => 100) = some w ∧
      w.log 0 = [createdSecond, createdFirst] ∧ w.log 1 = w.log 0 := ⟨_, rfl, rfl, rfl⟩
  have hcrossed : run replicaStep crossed (init fun _ => 100) = some _ := rfl
  obtain ⟨hone, -⟩ := names_unique hpassed 0 (d := NodeId.root) (by decide) "b"
  obtain ⟨-, htwo⟩ := names_unique hcrossed 0 (d := NodeId.root) (by decide) "c"
  refine ⟨⟨w, hpassed, (hone ?_).2 1 fun op => by rw [hlogs.2]⟩, _, hcrossed,
    htwo _ _ ⟨_, rfl, rfl⟩ ⟨_, rfl, rfl⟩ (by decide)⟩
  have named : ∀ op ∈ [createdSecond, createdFirst],
      op.parent = NodeId.root → op.metadata.name = "b" → op.child = inRoot "b" := by decide
  have held : ∀ x, (w.replicas 0).HasName NodeId.root "b" x → x = inRoot "b" := by
    intro x hx
    obtain ⟨op, ⟨hchild, hparent, hname⟩, hforce⟩ := (hasName_iff_inForce (inv_run hpassed)).1 hx
    rw [← hchild, named op (hlogs.1 ▸ hforce.1.1) hparent hname]
  intro x y hx hy
  rw [held x hx, held y hy]

/-- Then replica 0 has two files "c" in its root. -/
theorem two_of_one_name : ∃ w, run replicaStep crossed (init fun _ => 100) = some w ∧
    (w.replicas 0).Live NodeId.root ∧ inRoot "a" ≠ inRoot "b" ∧
    (w.replicas 0).tree.find (inRoot "a") = some ⟨NodeId.root, .regularFile "c" 0 []⟩ ∧
    (w.replicas 0).tree.find (inRoot "b") = some ⟨NodeId.root, .regularFile "c" 0 []⟩ :=
  ⟨_, rfl, .root, by decide, rfl, rfl⟩

end Edfs.ReplicaWorld
