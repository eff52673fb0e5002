import Edfs.Filesystem.Calls
import Edfs.Network.ChunkFetcher
import Edfs.Reference

/-!
# The outcomes of fetches

Runs of one node's chunk handler: any commands, any responses and failures, for whatever ids, with
any set of connected peers at each event. The file system may be used by others in between.

* `FetchWorld`, `fetchStep`: the fetcher, with a record of who has been handed in and answered, of
  the requests of each hash's latest session, and of what has become of requests;
* `Inv`: a waiter is in one session or has been answered, and sessions live by their attempts;
  `inv_step`;
* `fetch_outcomes`.
-/

namespace Edfs

open Execution

/-- An event, with what the handler finds around it, or a use of the file system. -/
inductive FetchEvent (PeerId : Type)
  | handle (c : Surroundings PeerId) (e : ChunkEvent PeerId)
  | call (e : Event PeerId)

structure FetchWorld (PeerId : Type) [CrdtTree PeerId] where
  fetcher : ChunkFetcher PeerId
  filesystem : FileSystem PeerId
  /-- The waiters handed in, with the hashes they ask for. -/
  handedIn : List (ℕ × ChunkHash)
  answers : List (ℕ × Option Bytes)
  /-- The ids of the requests sent. -/
  used : List ℕ
  /-- The requests of the latest session of each hash. -/
  asked : ChunkHash → List (ℕ × PeerId)
  /-- The requests that have failed, or brought an error. -/
  failed : List ℕ
  /-- The hashes of the bytes that have been returned for requests. -/
  returned : List (ℕ × ChunkHash)
  /-- The requests that have had an outcome. -/
  outcomes : List ℕ

namespace ChunkEvent

variable {PeerId : Type}

/-- The waiter an event hands in. -/
def handedIn : ChunkEvent PeerId → List (ℕ × ChunkHash)
  | .fetchChunk hash (some x) _ => [(x, hash)]
  | _ => []

/-- The request an event is the outcome of. -/
def outcome : ChunkEvent PeerId → List ℕ
  | .response id _ => [id]
  | .outboundFailure id => [id]
  | _ => []

def failed : ChunkEvent PeerId → List ℕ
  | .response id (.error _) => [id]
  | .outboundFailure id => [id]
  | _ => []

def returned [Sha256] : ChunkEvent PeerId → List (ℕ × ChunkHash)
  | .response id (.chunkData data) => [(id, ChunkHash.of data)]
  | _ => []

/-- An event opens a session for a hash if it wants the chunk and there is none. -/
def opens (f : ChunkFetcher PeerId) (hash : ChunkHash) : ChunkEvent PeerId → Bool
  | .fetchChunk h _ _ => h = hash && (f.sessions hash).isNone
  | _ => false

end ChunkEvent

namespace FetchWorld

variable {PeerId : Type} [CrdtTree PeerId]

def init (p : PeerId) (maxPinnedBytes : ℕ) : FetchWorld PeerId where
  fetcher := .new
  filesystem := FileSystem.init p maxPinnedBytes
  handedIn := []
  answers := []
  used := []
  asked _ := []
  failed := []
  returned := []
  outcomes := []

variable [Sha256]

/-- Record an event. -/
def record (w : FetchWorld PeerId) (e : ChunkEvent PeerId) : FetchWorld PeerId :=
  { w with
    handedIn := e.handedIn ++ w.handedIn
    asked := fun hash => if e.opens w.fetcher hash then [] else w.asked hash
    failed := e.failed ++ w.failed
    returned := e.returned ++ w.returned
    outcomes := e.outcome ++ w.outcomes }

omit [Sha256] in
/-- Record what a call has done. -/
def note (w : FetchWorld PeerId) (r : ChunkFetcher PeerId × FetchOutput PeerId) :
    FetchWorld PeerId :=
  { w with
    fetcher := r.1
    answers := r.2.answers ++ w.answers
    used := r.2.sent.map PullChunk.requestId ++ w.used
    asked := fun hash => (r.2.sent.filter fun m => m.hash = hash).map
      (fun m => (m.requestId, m.peer)) ++ w.asked hash }

/-- Enough ids for the requests of a call, all of them new. -/
def FreshIds (w : FetchWorld PeerId) (ids : List ℕ) : Prop :=
  ids.Nodup ∧ (∀ id ∈ ids, id ∉ w.used) ∧ maxFetchTargets ≤ ids.length

instance (w : FetchWorld PeerId) (ids : List ℕ) : Decidable (w.FreshIds ids) :=
  inferInstanceAs (Decidable (_ ∧ _))

/-- Each waiter is handed in once. -/
def NewWaiter (w : FetchWorld PeerId) (e : ChunkEvent PeerId) : Prop :=
  ∀ c ∈ e.handedIn, c.1 ∉ w.handedIn.map Prod.fst

instance (w : FetchWorld PeerId) (e : ChunkEvent PeerId) : Decidable (w.NewWaiter e) :=
  inferInstanceAs (Decidable (∀ c ∈ e.handedIn, _))

variable [LinearOrder PeerId] [PeerBytes PeerId] [UuidV5] [FastCdc]

def fetchStep : FetchEvent PeerId → FetchWorld PeerId → Option (FetchWorld PeerId)
  | .handle c e, w =>
    if w.FreshIds c.ids ∧ w.NewWaiter e then
      let (f, fs, out) := ChunkHandler.handle c e w.fetcher w.filesystem
      some ({ w.record e with filesystem := fs }.note (f, out))
    else none
  | .call e, w => (w.filesystem.callStep e).map fun fs => { w with filesystem := fs }

/-! ### What every run keeps -/

/-- A request for a hash has failed, or has returned bytes with another hash. -/
def Lost (w : FetchWorld PeerId) (hash : ChunkHash) (id : ℕ) : Prop :=
  id ∈ w.failed ∨ ∃ h, (id, h) ∈ w.returned ∧ h ≠ hash

/-- Every waiter is in one session or has been answered, with the right bytes; the tables agree with
the requests; and what a session has asked it is still waiting for, or it is lost. Every session has
an attempt, but for those in `o`. -/
structure InvBut (o : ChunkHash → Prop) (w : FetchWorld PeerId) : Prop
    extends ChunkFetcher.Tabled o w.asked w.used w.fetcher where
  asked : ∀ h s, w.fetcher.sessions h = some s →
    ∀ a ∈ w.asked h, a.1 ∈ s.attempts ∨ w.Lost h a.1
  handed : (w.handedIn.map Prod.fst).Nodup
  waiting : ∀ h s, w.fetcher.sessions h = some s →
    s.waiters.Nodup ∧ ∀ x ∈ s.waiters, (x, h) ∈ w.handedIn ∧ x ∉ w.answers.map Prod.fst
  answered : (w.answers.map Prod.fst).Nodup ∧
    ∀ x ∈ w.answers.map Prod.fst, x ∈ w.handedIn.map Prod.fst
  covered : ∀ c ∈ w.handedIn, (∃ s, w.fetcher.sessions c.2 = some s ∧ c.1 ∈ s.waiters) ∨
    c.1 ∈ w.answers.map Prod.fst
  right : ∀ c ∈ w.handedIn, ∀ d, (c.1, some d) ∈ w.answers → ChunkHash.of d = c.2

/-- The invariant between two events. -/
abbrev Inv (w : FetchWorld PeerId) : Prop := w.InvBut fun _ => False

section Walk

variable {w : FetchWorld PeerId} {o : ChunkHash → Prop}

omit [LinearOrder PeerId] [PeerBytes PeerId] [UuidV5] [FastCdc] in
/-- A waiter asks for one hash. -/
theorem InvBut.hash_eq (h : w.InvBut o) {x : ℕ} {a b : ChunkHash} (ha : (x, a) ∈ w.handedIn)
    (hb : (x, b) ∈ w.handedIn) : a = b :=
  congrArg Prod.snd (List.inj_on_of_nodup_map h.handed ha hb rfl)

omit [LinearOrder PeerId] [PeerBytes PeerId] [UuidV5] [FastCdc] in
theorem InvBut.mono (h : w.InvBut o) {o' : ChunkHash → Prop} (ho : ∀ a, o a → o' a) :
    w.InvBut o' :=
  { h with toTabled := h.toTabled.mono ho }

omit [LinearOrder PeerId] [PeerBytes PeerId] [UuidV5] [FastCdc] in
/-- Those who wait for two sessions are others. -/
theorem InvBut.notMem_waiters (h : w.InvBut o) {a b : ChunkHash} {s t : FetchSession PeerId}
    (ha : w.fetcher.sessions a = some s) (hb : w.fetcher.sessions b = some t) (hab : a ≠ b)
    {x : ℕ} (hx : x ∈ s.waiters) : x ∉ t.waiters := fun hx' =>
  hab (h.hash_eq (((h.waiting a s ha).2 x hx).1) (((h.waiting b t hb).2 x hx').1))

omit [LinearOrder PeerId] [PeerBytes PeerId] [UuidV5] [FastCdc] in
/-- Nobody is forgotten when a session is replaced by one with the same waiters. -/
theorem InvBut.covered_update (h : w.InvBut o) {hash : ChunkHash} {s s' : FetchSession PeerId}
    (hs : w.fetcher.sessions hash = some s) (hwaiters : s'.waiters = s.waiters)
    {c : ℕ × ChunkHash} (hc : c ∈ w.handedIn) :
    (∃ t, Function.update w.fetcher.sessions hash (some s') c.2 = some t ∧ c.1 ∈ t.waiters) ∨
      c.1 ∈ w.answers.map Prod.fst := by
  refine (h.covered c hc).imp_left ?_
  rintro ⟨t, ht, hct⟩
  by_cases hhash : c.2 = hash
  · rw [hhash] at ht ⊢
    cases hs.symm.trans ht
    exact ⟨s', Function.update_self _ _ _, hwaiters ▸ hct⟩
  · exact ⟨t, (Function.update_of_ne hhash _ _).trans ht, hct⟩

omit [Sha256] [LinearOrder PeerId] [PeerBytes PeerId] [UuidV5] [FastCdc] in
/-- The requests recorded of each hash once some have been sent for one. -/
theorem asked_note_sent (w : FetchWorld PeerId) (f : ChunkFetcher PeerId) (hash : ChunkHash)
    (targets : List (PeerId × ℕ)) (a : ChunkHash) :
    (w.note (f, ⟨targets.map fun t => ⟨t.2, t.1, hash⟩, []⟩)).asked a =
      (if a = hash then targets.map fun t => (t.2, t.1) else []) ++ w.asked a := by
  change ((targets.map fun t => (⟨t.2, t.1, hash⟩ : PullChunk PeerId)).filter
    fun m => m.hash = a).map (fun m => (m.requestId, m.peer)) ++ w.asked a = _
  by_cases ha : a = hash
  · subst ha
    simp [List.filter_map, Function.comp_def]
  · simp [List.filter_map, Function.comp_def, Ne.symm ha, ha]

omit [Sha256] [LinearOrder PeerId] [PeerBytes PeerId] [UuidV5] [FastCdc] in
theorem used_note_sent (w : FetchWorld PeerId) (f : ChunkFetcher PeerId) (hash : ChunkHash)
    (targets : List (PeerId × ℕ)) :
    (w.note (f, ⟨targets.map fun t => ⟨t.2, t.1, hash⟩, []⟩)).used =
      targets.map Prod.snd ++ w.used := by
  simp [note, Function.comp_def]

omit [Sha256] [LinearOrder PeerId] [PeerBytes PeerId] [UuidV5] [FastCdc] in
/-- Those who have been answered once the waiters of a session are. -/
theorem answered_note (w : FetchWorld PeerId) (f : ChunkFetcher PeerId) (waiters : List ℕ)
    (answer : Option Bytes) :
    (w.note (f, ⟨[], waiters.map (·, answer)⟩)).answers.map Prod.fst =
      waiters ++ w.answers.map Prod.fst := by
  simp [note, Function.comp_def]

omit [LinearOrder PeerId] [PeerBytes PeerId] [UuidV5] [FastCdc] in
/-- The end of a session: its waiters get an answer, and its requests are forgotten. -/
theorem InvBut.close {hash : ChunkHash} {s : FetchSession PeerId} (h : w.InvBut (· = hash))
    (hs : w.fetcher.sessions hash = some s) {f : ChunkFetcher PeerId}
    (hsessions : f.sessions = Function.update w.fetcher.sessions hash none)
    (hrequests : ∀ id, f.requests id = if id ∈ s.attempts then none else w.fetcher.requests id)
    {answer : Option Bytes} (hright : ∀ d, answer = some d → ChunkHash.of d = hash) :
    (w.note (f, ⟨[], s.waiters.map (·, answer)⟩)).Inv := by
  -- the sessions that are left
  have hleft : ∀ {a t}, f.sessions a = some t → a ≠ hash ∧ w.fetcher.sessions a = some t := by
    intro a t ht
    rw [hsessions] at ht
    exact (ChunkFetcher.update_eq_some.1 ht).resolve_left fun hnone => by cases hnone.2
  have hkept : ∀ {a t}, a ≠ hash → w.fetcher.sessions a = some t → f.sessions a = some t := by
    intro a t ha ht
    rw [hsessions, Function.update_of_ne ha, ht]
  obtain ⟨hnodup, hwaiters⟩ := h.waiting hash s hs
  constructor
  · exact h.toTabled.close hs hsessions hrequests (fun _ _ => rfl) (List.Subset.refl _)
  · intro a t ht b hb
    exact h.asked a t (hleft ht).2 b hb
  · exact h.handed
  · intro a t ht
    obtain ⟨ha, ht⟩ := hleft ht
    refine ⟨(h.waiting a t ht).1, fun x hx => ⟨((h.waiting a t ht).2 x hx).1, ?_⟩⟩
    rw [answered_note, List.mem_append, not_or]
    exact ⟨h.notMem_waiters ht hs ha hx, ((h.waiting a t ht).2 x hx).2⟩
  · refine ⟨?_, fun x hx => ?_⟩
    · rw [answered_note]
      refine List.nodup_append.2 ⟨hnodup, h.answered.1, ?_⟩
      rintro x hx y hy rfl
      exact (hwaiters x hx).2 hy
    · rw [answered_note] at hx
      rcases List.mem_append.1 hx with hx | hx
      · exact List.mem_map_of_mem (hwaiters x hx).1
      · exact h.answered.2 x hx
  · intro c hc
    rw [answered_note]
    rcases h.covered c hc with ⟨t, ht, hct⟩ | hc
    · by_cases hhash : c.2 = hash
      · rw [hhash, hs] at ht
        cases ht
        exact Or.inr (List.mem_append_left _ hct)
      · exact Or.inl ⟨t, hkept hhash ht, hct⟩
    · exact Or.inr (List.mem_append_right _ hc)
  · intro c hc d hd
    rcases List.mem_append.1 hd with hd | hd
    · obtain ⟨x, hx, heq⟩ := List.mem_map.1 hd
      obtain ⟨rfl, rfl⟩ := Prod.mk.inj heq
      rw [hright d rfl]
      exact h.hash_eq (hwaiters _ hx).1 hc
    · exact h.right c hc d hd

omit [LinearOrder PeerId] [PeerBytes PeerId] [UuidV5] [FastCdc] in
/-- New requests for a session without attempts are its attempts. -/
theorem InvBut.ask [DecidableEq PeerId] {hash : ChunkHash} {s : FetchSession PeerId}
    (h : w.InvBut (· = hash)) (hs : w.fetcher.sessions hash = some s)
    (hempty : ∀ id, id ∉ s.attempts) {targets : List (PeerId × ℕ)} (hne : targets ≠ [])
    (hfresh : ∀ id ∈ targets.map Prod.snd, id ∉ w.used) :
    (w.note (ChunkFetcher.sendPulls hash targets w.fetcher,
      ⟨targets.map fun t => ⟨t.2, t.1, hash⟩, []⟩)).Inv := by
  obtain ⟨s', hsessions, hwaiters, -, -, hattempts, -⟩ := ChunkFetcher.sendPulls_spec targets hs
  -- the sessions there are now
  have hnow : ∀ a t, (ChunkFetcher.sendPulls hash targets w.fetcher).sessions a = some t →
      a = hash ∧ t = s' ∨ a ≠ hash ∧ w.fetcher.sessions a = some t := by
    intro a t ht
    rw [hsessions] at ht
    exact ChunkFetcher.update_some_cases ht
  have hnew : ∀ id, id ∈ s'.attempts ↔ id ∈ targets.map Prod.snd := fun id => by
    rw [hattempts, or_iff_right (hempty id)]
  constructor
  · refine h.toTabled.ask hs hempty hne hfresh ?_ (fun a ha => ?_) ?_
    · rw [asked_note_sent, if_pos rfl]
    · rw [asked_note_sent, if_neg ha, List.nil_append]
    · rw [used_note_sent]
      exact List.Subset.refl _
  · intro a t ht b hb
    rw [asked_note_sent] at hb
    rcases hnow a t ht with ⟨rfl, rfl⟩ | ⟨ha, ht⟩
    · rw [if_pos rfl] at hb
      rcases List.mem_append.1 hb with hb | hb
      · obtain ⟨target, hmem, rfl⟩ := List.mem_map.1 hb
        exact Or.inl ((hnew _).2 (List.mem_map_of_mem hmem))
      · exact Or.inr ((h.asked a s hs b hb).resolve_left (hempty b.1))
    · rw [if_neg ha] at hb
      exact h.asked a t ht b hb
  · exact h.handed
  · intro a t ht
    rcases hnow a t ht with ⟨rfl, rfl⟩ | ⟨-, ht⟩
    · rw [hwaiters]
      exact h.waiting a s hs
    · exact h.waiting a t ht
  · exact h.answered
  · intro c hc
    change (∃ t, (ChunkFetcher.sendPulls hash targets w.fetcher).sessions c.2 = some t ∧
      c.1 ∈ t.waiters) ∨ c.1 ∈ w.answers.map Prod.fst
    rw [hsessions]
    exact h.covered_update hs hwaiters hc
  · exact h.right

/-- What an end without the chunk means for those it answers. -/
def Exhausted (w : FetchWorld PeerId) (connected : List PeerId) (hash : ChunkHash) : Prop :=
  w.fetcher.sessions hash = none ∧ (∀ p ∈ connected, ∃ id, (id, p) ∈ w.asked hash) ∧
    ∀ a ∈ w.asked hash, w.Lost hash a.1

omit [UuidV5] [FastCdc] in
/-- `walk_down` gives a session without attempts new ones, or ends it when all connected peers have
been asked in vain. -/
theorem InvBut.walk {hash : ChunkHash} {s : FetchSession PeerId} (h : w.InvBut (· = hash))
    (hs : w.fetcher.sessions hash = some s) (hempty : ∀ id, id ∉ s.attempts)
    {c : Surroundings PeerId} (hids : w.FreshIds c.ids) (now : ℕ) :
    let w' := w.note (w.fetcher.walkDown c now hash)
    w'.Inv ∧ ∀ x, (x, none) ∈ w'.answers →
      (x, none) ∈ w.answers ∨ (x, hash) ∈ w.handedIn ∧ w'.Exhausted c.connected hash := by
  intro w'
  have hlost : ∀ a ∈ w.asked hash, w.Lost hash a.1 := fun a ha =>
    (h.asked hash s hs a ha).resolve_left (hempty a.1)
  by_cases htargets : ChunkFetcher.nextTargets hash c.connected s.tried maxFetchTargets = []
  · -- everyone has been asked
    obtain ⟨f, hwalk, hsessions, hrequests⟩ := ChunkFetcher.walkDown_done hs htargets now
    have hw' : w' = w.note (f, ⟨[], s.waiters.map (·, none)⟩) := congrArg w.note hwalk
    rw [hw']
    refine ⟨h.close hs hsessions (fun id => ?_) (fun d hd => by cases hd), fun x hx => ?_⟩
    · rw [hrequests, if_neg (hempty id)]
    · rcases List.mem_append.1 hx with hx | hx
      · obtain ⟨y, hy, heq⟩ := List.mem_map.1 hx
        obtain ⟨rfl, -⟩ := Prod.mk.inj heq
        refine Or.inr ⟨((h.waiting hash s hs).2 _ hy).1, ?_, fun p hp => ?_, hlost⟩
        · change f.sessions hash = none
          rw [hsessions, Function.update_self]
        · have htried := ChunkFetcher.nextTargets_eq_nil.1 htargets p hp
          obtain ⟨a, ha, rfl⟩ := List.mem_map.1 ((h.tried hash s hs p).1 htried)
          exact ⟨a.1, ha⟩
      · exact Or.inl hx
  · -- the next peers are asked
    obtain ⟨targets, hne, hfirst, hwalk⟩ := ChunkFetcher.walkDown_more hs htargets hids.2.2 now
    have hw' : w' = w.note (ChunkFetcher.sendPulls hash targets w.fetcher,
        ⟨targets.map fun t => ⟨t.2, t.1, hash⟩, []⟩) := congrArg w.note hwalk
    rw [hw']
    exact ⟨h.ask hs hempty hne fun id hid => hids.2.1 id (hfirst.subset hid),
      fun x hx => Or.inl hx⟩

omit [LinearOrder PeerId] [PeerBytes PeerId] [UuidV5] [FastCdc] in
/-- An event that hands nobody in and opens no session only adds to the records. -/
theorem InvBut.record (h : w.InvBut o) {e : ChunkEvent PeerId} (hhanded : e.handedIn = [])
    (hopens : ∀ hash, e.opens w.fetcher hash = false) : (w.record e).InvBut o := by
  have hasked : (w.record e).asked = w.asked := funext fun hash => by
    simp [FetchWorld.record, hopens]
  have hhandedIn : (w.record e).handedIn = w.handedIn := by simp [FetchWorld.record, hhanded]
  have hlost : ∀ a id, w.Lost a id → (w.record e).Lost a id := fun a id hlost =>
    hlost.imp (List.mem_append_right _) fun ⟨x, hx, hne⟩ => ⟨x, List.mem_append_right _ hx, hne⟩
  exact
    { toTabled := hasked ▸ h.toTabled
      asked := fun a t ht b hb => (h.asked a t ht b (hasked ▸ hb)).imp_right (hlost a b.1)
      handed := hhandedIn ▸ h.handed
      waiting := hhandedIn ▸ h.waiting
      answered := hhandedIn ▸ h.answered
      covered := hhandedIn ▸ h.covered
      right := hhandedIn ▸ h.right }

omit [LinearOrder PeerId] [PeerBytes PeerId] [UuidV5] [FastCdc] in
/-- An attempt that is lost can be dropped. -/
theorem InvBut.drop (h : w.Inv) {hash : ChunkHash} {s : FetchSession PeerId}
    (hs : w.fetcher.sessions hash = some s) {id : ℕ} (hid : id ∈ s.attempts)
    (hlost : w.Lost hash id) :
    InvBut (fun a => a = hash ∧ ¬ (s.attempts.erase id).keys.Nonempty)
      { w with
        fetcher := (w.fetcher.removeRequest id).setSession hash
          (some { s with attempts := s.attempts.erase id }) } := by
  have hnow : ∀ a t, Function.update w.fetcher.sessions hash
      (some { s with attempts := s.attempts.erase id }) a = some t →
      a = hash ∧ t = { s with attempts := s.attempts.erase id } ∨
        a ≠ hash ∧ w.fetcher.sessions a = some t :=
    fun _ _ => ChunkFetcher.update_some_cases
  constructor
  · exact h.toTabled.drop hs hid
  · intro a t ht b hb
    rcases hnow a t ht with ⟨rfl, rfl⟩ | ⟨-, ht⟩
    · rcases h.asked a s hs b hb with hmem | hb
      · by_cases hbid : b.1 = id
        · exact Or.inr (hbid ▸ hlost)
        · exact Or.inl (Finmap.mem_erase.2 ⟨hbid, hmem⟩)
      · exact Or.inr hb
    · exact h.asked a t ht b hb
  · exact h.handed
  · intro a t ht
    rcases hnow a t ht with ⟨rfl, rfl⟩ | ⟨-, ht⟩
    · exact h.waiting a s hs
    · exact h.waiting a t ht
  · exact h.answered
  · have hwaiters : ({ s with attempts := s.attempts.erase id } : FetchSession PeerId).waiters
        = s.waiters := rfl
    exact fun c hc => h.covered_update hs hwaiters hc
  · exact h.right

/-- The records after a command to fetch a chunk. -/
def commanded (w : FetchWorld PeerId) (hash : ChunkHash) (reply : Option ℕ) (pin : Bool) :
    FetchWorld PeerId := w.record (.fetchChunk hash reply pin)

omit [LinearOrder PeerId] [PeerBytes PeerId] [UuidV5] [FastCdc] in
theorem handedIn_commanded (w : FetchWorld PeerId) (hash : ChunkHash) (reply : Option ℕ)
    (pin : Bool) :
    (w.commanded hash reply pin).handedIn = reply.toList.map (·, hash) ++ w.handedIn := by
  cases reply <;> rfl

omit [LinearOrder PeerId] [PeerBytes PeerId] [UuidV5] [FastCdc] in
theorem map_handedIn_commanded (w : FetchWorld PeerId) (hash : ChunkHash) (reply : Option ℕ)
    (pin : Bool) :
    (w.commanded hash reply pin).handedIn.map Prod.fst =
      reply.toList ++ w.handedIn.map Prod.fst := by
  rw [handedIn_commanded, List.map_append, List.map_map]
  exact congrArg (· ++ _) (List.map_id reply.toList)

omit [LinearOrder PeerId] [PeerBytes PeerId] [UuidV5] [FastCdc] in
/-- Only a session that opens has its requests forgotten. -/
theorem asked_commanded (w : FetchWorld PeerId) (hash : ChunkHash) (reply : Option ℕ)
    (pin : Bool) {a : ChunkHash} (ha : a = hash → (w.fetcher.sessions hash).isSome) :
    (w.commanded hash reply pin).asked a = w.asked a := by
  refine if_neg fun hopens => ?_
  obtain ⟨rfl, hnone⟩ : hash = a ∧ w.fetcher.sessions a = none := by
    simpa [ChunkEvent.opens] using hopens
  simp [hnone] at ha

/-- A session for a hash with one more waiter: the one there is, or a new one. -/
def Joins (w : FetchWorld PeerId) (hash : ChunkHash) (reply : Option ℕ) (pin : Bool)
    (s : FetchSession PeerId) : Prop :=
  (∃ t, w.fetcher.sessions hash = some t ∧ s.waiters = t.waiters ++ reply.toList ∧
      s.attempts = t.attempts ∧ s.tried = t.tried) ∨
    w.fetcher.sessions hash = none ∧ s = ⟨reply.toList, ∅, [], pin⟩

section Joins

variable {hash : ChunkHash} {reply : Option ℕ} {pin : Bool} {s : FetchSession PeerId}

omit [Sha256] [LinearOrder PeerId] [PeerBytes PeerId] [UuidV5] [FastCdc] in
theorem Joins.mem_waiters (h : w.Joins hash reply pin s) {x : ℕ} : x ∈ s.waiters ↔
    (∃ t, w.fetcher.sessions hash = some t ∧ x ∈ t.waiters) ∨ x ∈ reply.toList := by
  rcases h with ⟨t, ht, hwaiters, -, -⟩ | ⟨hnone, rfl⟩
  · simp [ht, hwaiters]
  · simp [hnone]

omit [Sha256] [LinearOrder PeerId] [PeerBytes PeerId] [UuidV5] [FastCdc] in
theorem Joins.mem_attempts (h : w.Joins hash reply pin s) {id : ℕ} : id ∈ s.attempts ↔
    ∃ t, w.fetcher.sessions hash = some t ∧ id ∈ t.attempts := by
  rcases h with ⟨t, ht, -, hattempts, -⟩ | ⟨hnone, rfl⟩
  · simp [ht, hattempts]
  · simp [hnone, Finmap.notMem_empty]

omit [LinearOrder PeerId] [PeerBytes PeerId] [UuidV5] [FastCdc] in
/-- The waiter is new, so the session has nobody twice. -/
theorem Joins.nodup (h : w.Joins hash reply pin s) (hinv : w.Inv)
    (hfresh : ∀ x ∈ reply.toList, x ∉ w.handedIn.map Prod.fst) : s.waiters.Nodup := by
  have hreply : reply.toList.Nodup := by cases reply <;> simp
  rcases h with ⟨t, ht, hwaiters, -, -⟩ | ⟨-, rfl⟩
  · obtain ⟨hnodup, hold⟩ := hinv.waiting hash t ht
    rw [hwaiters]
    refine List.nodup_append.2 ⟨hnodup, hreply, ?_⟩
    rintro x hx y hy rfl
    exact hfresh x hy (List.mem_map_of_mem (hold x hx).1)
  · exact hreply

omit [LinearOrder PeerId] [PeerBytes PeerId] [UuidV5] [FastCdc] in
theorem Joins.tabled (h : w.Joins hash reply pin s)
    (ht : w.fetcher.Tabled (fun _ => False) w.asked w.used) :
    (w.fetcher.setSession hash (some s)).Tabled
      (fun a => a = hash ∧ ¬ s.attempts.keys.Nonempty) (w.commanded hash reply pin).asked
      w.used := by
  rcases h with ⟨t, hold, -, hattempts, htried⟩ | ⟨hnone, rfl⟩
  · have hasked : (w.commanded hash reply pin).asked = w.asked := funext fun a =>
      asked_commanded w hash reply pin fun _ => by rw [hold]; rfl
    rw [hasked]
    exact (ht.join hold hattempts htried).mono fun _ => False.elim
  · refine (ht.open hnone reply.toList pin ?_ fun a ha => ?_).mono fun a ha => ⟨ha, ?_⟩
    · exact if_pos (by simp [ChunkEvent.opens, hnone])
    · exact asked_commanded w hash reply pin fun heq => absurd heq ha
    · rintro ⟨id, hid⟩
      exact Finmap.notMem_empty (Finmap.mem_keys.1 hid)

omit [LinearOrder PeerId] [PeerBytes PeerId] [UuidV5] [FastCdc] in
/-- A waiter that comes to a session, old or new. -/
theorem InvBut.join (h : w.Inv) (hnew : w.NewWaiter (.fetchChunk hash reply pin))
    (hjoins : w.Joins hash reply pin s) :
    InvBut (fun a => a = hash ∧ ¬ s.attempts.keys.Nonempty)
      { w.commanded hash reply pin with
        fetcher := w.fetcher.setSession hash (some s) } := by
  have hnow : ∀ a t, Function.update w.fetcher.sessions hash (some s) a = some t →
      a = hash ∧ t = s ∨ a ≠ hash ∧ w.fetcher.sessions a = some t :=
    fun _ _ => ChunkFetcher.update_some_cases
  have hfresh : ∀ x ∈ reply.toList, x ∉ w.handedIn.map Prod.fst := by
    intro x hx
    cases reply with
    | none => exact absurd hx List.not_mem_nil
    | some y => exact List.mem_singleton.1 hx ▸ hnew _ List.mem_cons_self
  have hnotAnswered : ∀ x ∈ reply.toList, x ∉ w.answers.map Prod.fst := fun x hx hmem =>
    hfresh x hx (h.answered.2 x hmem)
  have hhanded : ∀ c, c ∈ (w.commanded hash reply pin).handedIn ↔
      (c.1 ∈ reply.toList ∧ c.2 = hash) ∨ c ∈ w.handedIn := by
    intro c
    rw [handedIn_commanded, List.mem_append, List.mem_map]
    refine or_congr_left ⟨?_, fun hc => ⟨c.1, hc.1, by rw [← hc.2]⟩⟩
    rintro ⟨x, hx, rfl⟩
    exact ⟨hx, rfl⟩
  constructor
  · exact hjoins.tabled h.toTabled
  · intro a t ht b hb
    change b ∈ (w.commanded hash reply pin).asked a at hb
    rcases hnow a t ht with ⟨rfl, rfl⟩ | ⟨ha, ht⟩
    · cases hold : w.fetcher.sessions a with
      | none => simp [commanded, FetchWorld.record, ChunkEvent.opens, hold] at hb
      | some t' =>
        rw [asked_commanded w a reply pin fun _ => by simp [hold]] at hb
        exact (h.asked a t' hold b hb).imp_left fun hid => hjoins.mem_attempts.2 ⟨t', hold, hid⟩
    · rw [asked_commanded w hash reply pin fun heq => absurd heq ha] at hb
      exact h.asked a t ht b hb
  · change ((w.commanded hash reply pin).handedIn.map Prod.fst).Nodup
    rw [map_handedIn_commanded]
    refine List.nodup_append.2 ⟨by cases reply <;> simp, h.handed, ?_⟩
    rintro x hx y hy rfl
    exact hfresh x hx hy
  · intro a t ht
    have hold : ∀ a t, w.fetcher.sessions a = some t → ∀ x ∈ t.waiters,
        (x, a) ∈ (w.commanded hash reply pin).handedIn ∧ x ∉ w.answers.map Prod.fst :=
      fun a t ht x hx => ((h.waiting a t ht).2 x hx).imp_left fun hin => (hhanded _).2 (Or.inr hin)
    rcases hnow a t ht with ⟨rfl, rfl⟩ | ⟨-, ht⟩
    · refine ⟨hjoins.nodup h hfresh, fun x hx => ?_⟩
      rcases hjoins.mem_waiters.1 hx with ⟨t', ht', hx⟩ | hx
      · exact hold a t' ht' x hx
      · exact ⟨(hhanded _).2 (Or.inl ⟨hx, rfl⟩), hnotAnswered x hx⟩
    · exact ⟨(h.waiting a t ht).1, hold a t ht⟩
  · refine ⟨h.answered.1, fun x hx => ?_⟩
    change x ∈ (w.commanded hash reply pin).handedIn.map Prod.fst
    rw [map_handedIn_commanded]
    exact List.mem_append_right _ (h.answered.2 x hx)
  · intro c hc
    have hself : Function.update w.fetcher.sessions hash (some s) hash = some s :=
      Function.update_self _ _ _
    rcases (hhanded c).1 hc with ⟨hx, hhash⟩ | hc
    · exact Or.inl ⟨s, hhash ▸ hself, hjoins.mem_waiters.2 (Or.inr hx)⟩
    · refine (h.covered c hc).imp_left ?_
      rintro ⟨t, ht, hct⟩
      by_cases hhash : c.2 = hash
      · exact ⟨s, hhash ▸ hself, hjoins.mem_waiters.2 (Or.inl ⟨t, hhash ▸ ht, hct⟩)⟩
      · exact ⟨t, (Function.update_of_ne hhash _ _).trans ht, hct⟩
  · intro c hc d hd
    rcases (hhanded c).1 hc with ⟨hx, -⟩ | hc
    · exact absurd (List.mem_map.2 ⟨_, hd, rfl⟩) (hnotAnswered c.1 hx)
    · exact h.right c hc d hd

end Joins

/-- Why a waiter may be answered without the chunk: its hash is under back-off when it asks, or
everyone connected has been asked in vain. -/
def Excused (w : FetchWorld PeerId) (e : FetchEvent PeerId) (w' : FetchWorld PeerId) (x : ℕ)
    (hash : ChunkHash) : Prop :=
  (∃ c pin, e = .handle c (.fetchChunk hash (some x) pin) ∧
      w.fetcher.isBlocked hash (c.now 0)) ∨
    ∃ c ev, e = .handle c ev ∧ w'.Exhausted c.connected hash

omit [UuidV5] [FastCdc] in
/-- A command to fetch a chunk. -/
theorem fetchChunk_spec (h : w.Inv) {c : Surroundings PeerId} (hids : w.FreshIds c.ids)
    {hash : ChunkHash} {reply : Option ℕ} {pin : Bool}
    (hnew : w.NewWaiter (.fetchChunk hash reply pin)) :
    let w' := (w.commanded hash reply pin).note (w.fetcher.fetchChunk c hash reply pin)
    w'.Inv ∧ ∀ x, (x, none) ∈ w'.answers → (x, none) ∈ w.answers ∨
      (x, hash) ∈ w'.handedIn ∧
        (reply = some x ∧ w.fetcher.isBlocked hash (c.now 0) ∨ w'.Exhausted c.connected hash) := by
  unfold ChunkFetcher.fetchChunk
  cases hs : w.fetcher.sessions hash with
  | some s =>
    -- the waiter joins a session
    have hjoined := h.join hnew (s := { s with
      waiters := s.waiters ++ reply.toList
      pin := s.pin || pin }) (Or.inl ⟨s, hs, rfl, rfl, rfl⟩)
    exact ⟨hjoined.mono fun a ha => ha.2 (h.nonempty hash s hs not_false), fun x hx => Or.inl hx⟩
  | none =>
    set s : FetchSession PeerId := ⟨reply.toList, ∅, [], pin⟩ with hs₁
    have hjoined : InvBut (· = hash) { w.commanded hash reply pin with
        fetcher := w.fetcher.setSession hash (some s) } :=
      (h.join hnew (Or.inr ⟨hs, hs₁⟩)).mono fun a ha => ha.1
    have hself : (w.fetcher.setSession hash (some s)).sessions hash = some s :=
      Function.update_self _ _ _
    have hempty : ∀ id, id ∉ s.attempts := fun id => Finmap.notMem_empty
    dsimp only
    split_ifs with hblocked
    · -- it would have waited for a session that ends at once
      have hsessions : w.fetcher.sessions = Function.update
          (w.fetcher.setSession hash (some s)).sessions hash none := by
        rw [ChunkFetcher.setSession, Function.update_idem, ← hs, Function.update_eq_self]
      refine ⟨hjoined.close hself hsessions (fun id => ?_) (fun d hd => by cases hd), ?_⟩
      · rw [if_neg (hempty id)]
        rfl
      · intro x hx
        rcases List.mem_append.1 hx with hx | hx
        · obtain ⟨y, hy, heq⟩ := List.mem_map.1 hx
          obtain ⟨rfl, -⟩ := Prod.mk.inj heq
          have hreply : reply = some y := Option.mem_toList.1 hy
          refine Or.inr ⟨?_, Or.inl ⟨hreply, ?_⟩⟩
          · change (y, hash) ∈ (w.commanded hash reply pin).handedIn
            rw [handedIn_commanded, hreply]
            exact List.mem_cons_self
          · exact ((Bool.and_eq_true _ _).mp hblocked).2
        · exact Or.inl hx
    · obtain ⟨hinv, hnone⟩ := hjoined.walk hself hempty hids (c.now 1)
      refine ⟨hinv, fun x hx => ?_⟩
      exact (hnone x hx).imp_right fun ⟨hin, hexhausted⟩ => ⟨hin, Or.inr hexhausted⟩

omit [UuidV5] [FastCdc] in
/-- The failure of an attempt. -/
theorem onAttemptFailed_spec (h : w.Inv) {c : Surroundings PeerId} (hids : w.FreshIds c.ids)
    {hash : ChunkHash} {id : ℕ} (hrequest : w.fetcher.requests id = some hash)
    (hlost : w.Lost hash id) :
    let w' := w.note ((w.fetcher.removeRequest id).onAttemptFailed c hash id)
    w'.Inv ∧ ∀ x, (x, none) ∈ w'.answers → (x, none) ∈ w.answers ∨
      (x, hash) ∈ w.handedIn ∧ w'.Exhausted c.connected hash := by
  obtain ⟨s, hs, hid⟩ := (h.indexed id hash).1 hrequest
  have hdrop := h.drop hs hid hlost
  have hs' : (w.fetcher.removeRequest id).sessions hash = some s := hs
  unfold ChunkFetcher.onAttemptFailed
  rw [hs']
  dsimp only
  split_ifs with hrest
  · exact ⟨hdrop.mono fun a ha => ha.2 hrest, fun x hx => Or.inl hx⟩
  · have hself : ((w.fetcher.removeRequest id).setSession hash
        (some { s with attempts := s.attempts.erase id })).sessions hash =
          some { s with attempts := s.attempts.erase id } := Function.update_self _ _ _
    refine (hdrop.mono fun a ha => ha.1).walk hself (fun x hx => ?_) hids (c.now 0)
    exact hrest ⟨x, Finmap.mem_keys.2 hx⟩

omit [UuidV5] [FastCdc] in
/-- A response with bytes, which has been recorded. -/
theorem handleResponse_spec (h : w.Inv) {c : Surroundings PeerId} (hids : w.FreshIds c.ids)
    {id : ℕ} {data : Bytes} (hreturned : (id, ChunkHash.of data) ∈ w.returned) :
    let r := w.fetcher.handleResponse c id data w.filesystem
    let w' := { w with filesystem := r.2.1 }.note (r.1, r.2.2)
    w'.Inv ∧ ∀ x, (x, none) ∈ w'.answers → (x, none) ∈ w.answers ∨
      ∃ hash, (x, hash) ∈ w.handedIn ∧ w'.Exhausted c.connected hash := by
  unfold ChunkFetcher.handleResponse
  cases hrequest : w.fetcher.requests id with
  | none => exact ⟨h, fun x hx => Or.inl hx⟩
  | some hash =>
    dsimp only
    split_ifs with hne
    · obtain ⟨hinv, hnone⟩ := onAttemptFailed_spec h hids hrequest (Or.inr ⟨_, hreturned, hne⟩)
      refine ⟨hinv, fun x hx => (hnone x hx).imp_right fun hx => ⟨hash, hx⟩⟩
    · obtain ⟨s, hs, hid⟩ := (h.indexed id hash).1 hrequest
      have hs' : (w.fetcher.removeRequest id).sessions hash = some s := hs
      rw [hs']
      dsimp only
      obtain ⟨f, fs, hfinish, hsessions, hleft⟩ := ChunkFetcher.finish_spec c hash data s
        (w.fetcher.removeRequest id) w.filesystem
      have hrequests : ∀ x, f.requests x =
          if x ∈ s.attempts then none else w.fetcher.requests x := by
        intro x
        rw [hleft]
        split_ifs with hx
        · rfl
        · exact Function.update_of_ne (by rintro rfl; exact hx hid) _ _
      rw [hfinish]
      have hbut : InvBut (· = hash) { w with filesystem := fs } :=
        { h.mono fun _ => False.elim with }
      have hright : ∀ d, some data = some d → ChunkHash.of d = hash := fun d hd => by
        cases hd
        exact not_not.1 hne
      refine ⟨hbut.close hs hsessions hrequests hright, ?_⟩
      intro x hx
      rcases List.mem_append.1 hx with hx | hx
      · obtain ⟨y, -, heq⟩ := List.mem_map.1 hx
        exact absurd (congrArg Prod.snd heq) (Option.some_ne_none data)
      · exact Or.inl hx

omit [UuidV5] [FastCdc] in
/-- A request has failed, which has been recorded. -/
theorem handleFailure_spec (h : w.Inv) {c : Surroundings PeerId} (hids : w.FreshIds c.ids)
    {id : ℕ} (hfailed : id ∈ w.failed) :
    let w' := w.note (w.fetcher.handleFailure c id)
    w'.Inv ∧ ∀ x, (x, none) ∈ w'.answers → (x, none) ∈ w.answers ∨
      ∃ hash, (x, hash) ∈ w.handedIn ∧ w'.Exhausted c.connected hash := by
  unfold ChunkFetcher.handleFailure
  cases hrequest : w.fetcher.requests id with
  | none => exact ⟨h, fun x hx => Or.inl hx⟩
  | some hash =>
    obtain ⟨hinv, hnone⟩ := onAttemptFailed_spec h hids hrequest (Or.inl hfailed)
    exact ⟨hinv, fun x hx => (hnone x hx).imp_right fun hx => ⟨hash, hx⟩⟩

end Walk

omit [LinearOrder PeerId] [PeerBytes PeerId] [UuidV5] [FastCdc] in
theorem inv_init (p : PeerId) (maxPinnedBytes : ℕ) : (init p maxPinnedBytes).Inv where
  toTabled := ChunkFetcher.tabled_new
  asked _ _ h := by cases h
  handed := List.nodup_nil
  waiting _ _ h := by cases h
  answered := ⟨List.nodup_nil, fun _ h => absurd h List.not_mem_nil⟩
  covered _ h := absurd h List.not_mem_nil
  right _ h := absurd h List.not_mem_nil

/-- **Every event keeps the invariant**, and answers without the chunk only who is excused. -/
theorem fetchStep_spec {e : FetchEvent PeerId} {w w' : FetchWorld PeerId} (h : w.Inv)
    (hstep : fetchStep e w = some w') : w'.Inv ∧ ∀ x, (x, none) ∈ w'.answers →
      (x, none) ∈ w.answers ∨ ∃ hash, (x, hash) ∈ w'.handedIn ∧ w.Excused e w' x hash := by
  cases e with
  | call e =>
    obtain ⟨fs, -, rfl⟩ := Option.map_eq_some_iff.1 hstep
    exact ⟨{ h with }, fun x hx => Or.inl hx⟩
  | handle c e =>
    simp only [fetchStep] at hstep
    split_ifs at hstep with hguard
    obtain ⟨hids, hnew⟩ := hguard
    cases hstep
    cases e with
    | fetchChunk hash reply pin =>
      obtain ⟨hinv, hnone⟩ := fetchChunk_spec h hids hnew
      refine ⟨hinv, fun x hx => (hnone x hx).imp_right ?_⟩
      rintro ⟨hin, ⟨rfl, hblocked⟩ | hexhausted⟩
      · exact ⟨hash, hin, Or.inl ⟨c, pin, rfl, hblocked⟩⟩
      · exact ⟨hash, hin, Or.inr ⟨c, _, rfl, hexhausted⟩⟩
    | pullChunk hash =>
      have hrecord := h.record (e := .pullChunk hash) rfl fun _ => rfl
      exact ⟨{ hrecord with }, fun x hx => Or.inl hx⟩
    | response id r =>
      have hrecord := h.record (e := .response id r) rfl fun _ => rfl
      cases r with
      | chunkData data =>
        obtain ⟨hinv, hnone⟩ := handleResponse_spec hrecord hids
          (List.mem_append_left _ List.mem_cons_self)
        exact ⟨hinv, fun x hx => (hnone x hx).imp_right fun ⟨hash, hin, hexhausted⟩ =>
          ⟨hash, hin, Or.inr ⟨c, _, rfl, hexhausted⟩⟩⟩
      | error err =>
        obtain ⟨hinv, hnone⟩ := handleFailure_spec hrecord hids
          (List.mem_append_left _ List.mem_cons_self)
        exact ⟨hinv, fun x hx => (hnone x hx).imp_right fun ⟨hash, hin, hexhausted⟩ =>
          ⟨hash, hin, Or.inr ⟨c, _, rfl, hexhausted⟩⟩⟩
      | heldChunks hashes => exact ⟨hrecord, fun x hx => Or.inl hx⟩
      | missingOperations operations => exact ⟨hrecord, fun x hx => Or.inl hx⟩
    | outboundFailure id =>
      obtain ⟨hinv, hnone⟩ := handleFailure_spec (h.record (e := .outboundFailure id) rfl
        fun _ => rfl) hids (List.mem_append_left _ List.mem_cons_self)
      exact ⟨hinv, fun x hx => (hnone x hx).imp_right fun ⟨hash, hin, hexhausted⟩ =>
        ⟨hash, hin, Or.inr ⟨c, _, rfl, hexhausted⟩⟩⟩

theorem inv_run {p : PeerId} {maxPinnedBytes : ℕ} {events : List (FetchEvent PeerId)}
    {w : FetchWorld PeerId} (hrun : run fetchStep events (init p maxPinnedBytes) = some w) :
    w.Inv :=
  run_invariant (fun _ _ _ h hstep => (fetchStep_spec h hstep).1) (inv_init p maxPinnedBytes) hrun

/-! ### The outcomes -/

/-- A waiter waits in one session, for its hash, and has not been answered. -/
def WaitsOnce (w : FetchWorld PeerId) (x : ℕ) (hash : ChunkHash) : Prop :=
  (∃ s, w.fetcher.sessions hash = some s ∧ s.waiters.count x = 1) ∧
    (∀ h s, w.fetcher.sessions h = some s → x ∈ s.waiters → h = hash) ∧
    (w.answers.map Prod.fst).count x = 0

/-- A waiter has been answered once, and waits no more. -/
def AnsweredOnce (w : FetchWorld PeerId) (x : ℕ) : Prop :=
  (w.answers.map Prod.fst).count x = 1 ∧
    ∀ h s, w.fetcher.sessions h = some s → x ∉ s.waiters

omit [LinearOrder PeerId] [PeerBytes PeerId] [UuidV5] [FastCdc] in
theorem InvBut.waits_or_answered {w : FetchWorld PeerId} {o : ChunkHash → Prop} (h : w.InvBut o)
    {x : ℕ} {hash : ChunkHash} (hin : (x, hash) ∈ w.handedIn) :
    w.WaitsOnce x hash ∨ w.AnsweredOnce x := by
  by_cases hanswered : x ∈ w.answers.map Prod.fst
  · exact Or.inr ⟨List.count_eq_one_of_mem h.answered.1 hanswered,
      fun a s hs hx => ((h.waiting a s hs).2 x hx).2 hanswered⟩
  · obtain ⟨s, hs, hx⟩ := (h.covered _ hin).resolve_right hanswered
    exact Or.inl ⟨⟨s, hs, List.count_eq_one_of_mem (h.waiting hash s hs).1 hx⟩,
      fun a t ht hxt => h.hash_eq ((h.waiting a t ht).2 x hxt).1 hin,
      List.count_eq_zero_of_not_mem hanswered⟩

/-- **The outcomes of fetches are right and unique.** After any events, every waiter that has been
handed in waits in one session, for its hash, or has been answered, once; an answer with bytes has
the right ones; and whatever happens next, only a waiter that is excused gets an answer without. -/
theorem fetch_outcomes {p : PeerId} {maxPinnedBytes : ℕ} {events : List (FetchEvent PeerId)}
    {w : FetchWorld PeerId} (hrun : run fetchStep events (init p maxPinnedBytes) = some w) :
    (∀ x hash, (x, hash) ∈ w.handedIn → (w.WaitsOnce x hash ∨ w.AnsweredOnce x) ∧
      ∀ data, (x, some data) ∈ w.answers → ChunkHash.of data = hash) ∧
    ∀ e w', fetchStep e w = some w' → ∀ x, (x, none) ∈ w'.answers → (x, none) ∉ w.answers →
      ∃ hash, (x, hash) ∈ w'.handedIn ∧ w.Excused e w' x hash := by
  have h := inv_run hrun
  refine ⟨fun x hash hin => ⟨h.waits_or_answered hin, h.right _ hin⟩, ?_⟩
  intro e w' hstep x hx hnot
  exact ((fetchStep_spec h hstep).2 x hx).resolve_left hnot

end FetchWorld

end Edfs

namespace Edfs.FetchWorld

open Execution Reference

/-- Peers 0, 1 and 2 are connected, and the next requests get the ids from `id` on. -/
def near (id : ℕ) : Surroundings ℕ := ⟨[0, 1, 2], [id, id + 1, id + 2], fun _ => 0⟩

/-- Two waiters join a session; one peer fails, another sends wrong bytes. -/
def contested : List (FetchEvent ℕ) :=
  [.handle (near 0) (.fetchChunk (ChunkHash.of [7]) (some 10) false),
    .handle (near 3) (.fetchChunk (ChunkHash.of [7]) (some 11) true),
    .handle (near 3) (.outboundFailure 0),
    .handle (near 3) (.response 1 (.chunkData [8]))]

/-- Both wait; when the third peer fails too, they are answered without the chunk. -/
theorem fetch_outcomes_contested :
    ∃ w, run fetchStep contested (init 5 100) = some w ∧ w.WaitsOnce 10 (ChunkHash.of [7]) ∧
      ∃ e w', fetchStep e w = some w' ∧ (11, none) ∈ w'.answers ∧
        ∃ hash, w.Excused e w' 11 hash := by
  have hrun : run fetchStep contested (init 5 100) = some _ := rfl
  obtain ⟨hwaiters, hexcused⟩ := fetch_outcomes hrun
  refine ⟨_, hrun, ?_, .handle (near 3) (.outboundFailure 2), _, rfl, by decide, ?_⟩
  · refine ((hwaiters 10 (ChunkHash.of [7]) (by decide)).1).resolve_right fun h => ?_
    exact absurd h.1 (by decide)
  · obtain ⟨hash, -, h⟩ := hexcused (.handle (near 3) (.outboundFailure 2)) _ rfl 11
      (by decide) (by decide)
    exact ⟨hash, h⟩

end Edfs.FetchWorld
