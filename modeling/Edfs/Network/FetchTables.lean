import Edfs.Base.Execution
import Edfs.Network.ChunkFetcher
import Edfs.Reference

/-!
# The tables of the chunk fetcher

A fetcher's sessions, their attempts and its requests are tables that its calls keep in step. Here
every session there has been, for each hash, has a record: what it has sent to whom, and how often
`walk_down` has been called for it. The calls are those of the source, with any connected peers and
any file system each time, and new ids for their requests; `unwrap` is there, and has no result
where it would panic.

* `SessionRecord`, `FetchTables`, `tableStep`; `call_fetcher`: without the records they are the
  calls of the model;
* `Recorded`: what holds of the records; `Tracks`: of a session and its record;
* `InvBut`, `Inv`: the tables and the records; one lemma for each thing a call does, `inv_step`;
* `fetch_tables`.
-/

namespace Edfs

open Execution

/-- What has been done for one session. -/
structure SessionRecord (PeerId : Type) where
  /-- Its requests, and whom they have been sent to. -/
  sent : List (ℕ × PeerId)
  /-- The calls of `walk_down` for it. -/
  rounds : ℕ
  /-- The peers that were connected at these calls. -/
  met : Finset PeerId

/-- A fetcher, the records of the sessions for each hash, the latest first, and the ids used. -/
structure FetchTables (PeerId : Type) where
  fetcher : ChunkFetcher PeerId
  records : ChunkHash → List (SessionRecord PeerId)
  used : List ℕ

/-- A call of the fetcher. -/
inductive FetchCall (PeerId : Type) [CrdtTree PeerId]
  | fetchChunk (hash : ChunkHash) (reply : Option ℕ) (pin : Bool)
  | handleResponse (requestId : ℕ) (data : Bytes) (fs : FileSystem PeerId)
  | handleFailure (requestId : ℕ)

variable {PeerId : Type}

/-- The record after a round with these requests and connected peers. -/
def SessionRecord.round [DecidableEq PeerId] (sent : List (ℕ × PeerId)) (connected : List PeerId)
    (r : SessionRecord PeerId) : SessionRecord PeerId :=
  ⟨sent ++ r.sent, r.rounds + 1, r.met ∪ connected.toFinset⟩

namespace ChunkFetcher

variable [DecidableEq PeerId] [PeerBytes PeerId] [Sha256]

/-- `walk_down` with its `unwrap`: no result if the session to remove is not there. -/
def walkDownUnwrap (c : Surroundings PeerId) (now : ℕ) (hash : ChunkHash)
    (f : ChunkFetcher PeerId) : Option (ChunkFetcher PeerId × FetchOutput PeerId) :=
  match f.sessions hash with
  | none => some (f, .none)
  | some session =>
    let targets := nextTargets hash c.connected session.tried maxFetchTargets
    if targets = [] then
      match f.sessions hash with
      | none => none
      | some session =>
        let f := f.setSession hash none
        some (if session.pin then f.block hash now else f, ⟨[], session.waiters.map (·, none)⟩)
    else
      some (sendPulls hash (targets.zip c.ids) f,
        ⟨(targets.zip c.ids).map fun t => ⟨t.2, t.1, hash⟩, []⟩)

/-- The `unwrap` does not fail, in any state. -/
theorem walkDownUnwrap_eq (c : Surroundings PeerId) (now : ℕ) (hash : ChunkHash)
    (f : ChunkFetcher PeerId) : walkDownUnwrap c now hash f = some (walkDown c now hash f) := by
  unfold walkDownUnwrap walkDown
  cases f.sessions hash with
  | none => rfl
  | some session =>
    dsimp only
    split_ifs <;> rfl

/-- The fetcher after a call. -/
def after [CrdtTree PeerId] (c : Surroundings PeerId) (f : ChunkFetcher PeerId) :
    FetchCall PeerId → ChunkFetcher PeerId
  | .fetchChunk hash reply pin => (f.fetchChunk c hash reply pin).1
  | .handleResponse requestId data fs => (f.handleResponse c requestId data fs).1
  | .handleFailure requestId => (f.handleFailure c requestId).1

end ChunkFetcher

namespace FetchTables

/-- `ChunkFetcher::default`. -/
def new : FetchTables PeerId := ⟨.new, fun _ => [], []⟩

/-- The records of the sessions for a hash that are over. -/
def ended (t : FetchTables PeerId) (hash : ChunkHash) : List (SessionRecord PeerId) :=
  if (t.fetcher.sessions hash).isSome then (t.records hash).tail else t.records hash

/-- A new session, with an empty record. -/
def openSession (t : FetchTables PeerId) (hash : ChunkHash) (session : FetchSession PeerId) :
    FetchTables PeerId :=
  { t with
    fetcher := t.fetcher.setSession hash (some session)
    records := Function.update t.records hash (⟨[], 0, ∅⟩ :: t.records hash) }

section Calls

variable [DecidableEq PeerId] [PeerBytes PeerId] [Sha256]

def walkDown (c : Surroundings PeerId) (now : ℕ) (hash : ChunkHash) (t : FetchTables PeerId) :
    Option (FetchTables PeerId) :=
  (t.fetcher.walkDownUnwrap c now hash).map fun r =>
    let sent := r.2.sent.map fun m => (m.requestId, m.peer)
    { fetcher := r.1
      records := Function.update t.records hash
        ((t.records hash).modifyHead (SessionRecord.round sent c.connected))
      used := sent.map Prod.fst ++ t.used }

def fetchChunk (c : Surroundings PeerId) (hash : ChunkHash) (reply : Option ℕ) (pin : Bool)
    (t : FetchTables PeerId) : Option (FetchTables PeerId) :=
  match t.fetcher.sessions hash with
  | some session =>
    some { t with
      fetcher := t.fetcher.setSession hash (some
        { session with
          waiters := session.waiters ++ reply.toList
          pin := session.pin || pin }) }
  | none =>
    if !pin && t.fetcher.isBlocked hash (c.now 0) then some t
    else walkDown c (c.now 1) hash (t.openSession hash ⟨reply.toList, ∅, [], pin⟩)

def onAttemptFailed (c : Surroundings PeerId) (hash : ChunkHash) (requestId : ℕ)
    (t : FetchTables PeerId) : Option (FetchTables PeerId) :=
  match t.fetcher.sessions hash with
  | none => some t
  | some session =>
    let attempts := session.attempts.erase requestId
    let t := { t with
      fetcher := t.fetcher.setSession hash (some { session with attempts := attempts }) }
    if attempts.keys.Nonempty then some t else walkDown c (c.now 0) hash t

def handleFailure (c : Surroundings PeerId) (requestId : ℕ) (t : FetchTables PeerId) :
    Option (FetchTables PeerId) :=
  match t.fetcher.requests requestId with
  | none => some t
  | some hash =>
    onAttemptFailed c hash requestId { t with fetcher := t.fetcher.removeRequest requestId }

variable [CrdtTree PeerId]

def handleResponse (c : Surroundings PeerId) (requestId : ℕ) (data : Bytes)
    (fs : FileSystem PeerId) (t : FetchTables PeerId) : Option (FetchTables PeerId) :=
  match t.fetcher.requests requestId with
  | none => some t
  | some hash =>
    let t := { t with fetcher := t.fetcher.removeRequest requestId }
    if ChunkHash.of data ≠ hash then onAttemptFailed c hash requestId t
    else
      match t.fetcher.sessions hash with
      | none => some t
      | some session => some { t with fetcher := (t.fetcher.finish c hash data session fs).1 }

def call (c : Surroundings PeerId) (t : FetchTables PeerId) :
    FetchCall PeerId → Option (FetchTables PeerId)
  | .fetchChunk hash reply pin => t.fetchChunk c hash reply pin
  | .handleResponse requestId data fs => t.handleResponse c requestId data fs
  | .handleFailure requestId => t.handleFailure c requestId

omit [DecidableEq PeerId] [PeerBytes PeerId] [Sha256] [CrdtTree PeerId] in
/-- What the swarm offers a call: enough ids for its requests, all of them new, and the connected
peers, each once. -/
def Offers (t : FetchTables PeerId) (c : Surroundings PeerId) : Prop :=
  c.ids.Nodup ∧ (∀ id ∈ c.ids, id ∉ t.used) ∧ maxFetchTargets ≤ c.ids.length ∧ c.connected.Nodup

instance (t : FetchTables PeerId) (c : Surroundings PeerId) : Decidable (t.Offers c) :=
  inferInstanceAs (Decidable (_ ∧ _))

def tableStep (e : Surroundings PeerId × FetchCall PeerId) (t : FetchTables PeerId) :
    Option (FetchTables PeerId) :=
  if t.Offers e.1 then t.call e.1 e.2 else none

/-! ### Without the records -/

omit [CrdtTree PeerId] in
theorem walkDown_fetcher (c : Surroundings PeerId) (now : ℕ) (hash : ChunkHash)
    (t : FetchTables PeerId) :
    (t.walkDown c now hash).map fetcher = some (t.fetcher.walkDown c now hash).1 := by
  rw [walkDown, ChunkFetcher.walkDownUnwrap_eq]
  rfl

omit [CrdtTree PeerId] in
theorem onAttemptFailed_fetcher (c : Surroundings PeerId) (hash : ChunkHash) (requestId : ℕ)
    (t : FetchTables PeerId) :
    (t.onAttemptFailed c hash requestId).map fetcher =
      some (t.fetcher.onAttemptFailed c hash requestId).1 := by
  unfold onAttemptFailed ChunkFetcher.onAttemptFailed
  cases t.fetcher.sessions hash with
  | none => rfl
  | some session =>
    dsimp only
    split_ifs
    · rfl
    · exact walkDown_fetcher ..

omit [CrdtTree PeerId] in
theorem fetchChunk_fetcher (c : Surroundings PeerId) (hash : ChunkHash) (reply : Option ℕ)
    (pin : Bool) (t : FetchTables PeerId) :
    (t.fetchChunk c hash reply pin).map fetcher =
      some (t.fetcher.fetchChunk c hash reply pin).1 := by
  unfold fetchChunk ChunkFetcher.fetchChunk
  cases t.fetcher.sessions hash with
  | some session => rfl
  | none =>
    dsimp only
    split_ifs
    · rfl
    · exact walkDown_fetcher ..

omit [CrdtTree PeerId] in
theorem handleFailure_fetcher (c : Surroundings PeerId) (requestId : ℕ) (t : FetchTables PeerId) :
    (t.handleFailure c requestId).map fetcher =
      some (t.fetcher.handleFailure c requestId).1 := by
  unfold handleFailure ChunkFetcher.handleFailure
  cases t.fetcher.requests requestId with
  | none => rfl
  | some hash => exact onAttemptFailed_fetcher ..

theorem handleResponse_fetcher (c : Surroundings PeerId) (requestId : ℕ) (data : Bytes)
    (fs : FileSystem PeerId) (t : FetchTables PeerId) :
    (t.handleResponse c requestId data fs).map fetcher =
      some (t.fetcher.handleResponse c requestId data fs).1 := by
  unfold handleResponse ChunkFetcher.handleResponse
  cases t.fetcher.requests requestId with
  | none => rfl
  | some hash =>
    dsimp only
    split_ifs
    · exact onAttemptFailed_fetcher ..
    · cases (t.fetcher.removeRequest requestId).sessions hash <;> rfl

/-- **The calls are those of the model, with records**, and none of them panics. -/
theorem call_fetcher (c : Surroundings PeerId) (t : FetchTables PeerId) (e : FetchCall PeerId) :
    (t.call c e).map fetcher = some (t.fetcher.after c e) := by
  cases e with
  | fetchChunk hash reply pin => exact fetchChunk_fetcher ..
  | handleResponse requestId data fs => exact handleResponse_fetcher ..
  | handleFailure requestId => exact handleFailure_fetcher ..

end Calls

/-! ### The records -/

/-- The ids of the requests of some sessions. -/
def requestIds (rs : List (SessionRecord PeerId)) : List ℕ :=
  (rs.flatMap SessionRecord.sent).map Prod.fst

theorem requestIds_cons (r : SessionRecord PeerId) (rs : List (SessionRecord PeerId)) :
    requestIds (r :: rs) = r.sent.map Prod.fst ++ requestIds rs := by
  rw [requestIds, List.flatMap_cons, List.map_append]
  rfl

theorem mem_requestIds {rs : List (SessionRecord PeerId)} {r : SessionRecord PeerId} (hr : r ∈ rs)
    {x : ℕ × PeerId} (hx : x ∈ r.sent) : x.1 ∈ requestIds rs :=
  List.mem_map_of_mem (List.mem_flatMap.2 ⟨r, hr, hx⟩)

theorem requestIds_update (records : ChunkHash → List (SessionRecord PeerId)) (hash : ChunkHash)
    (rs : List (SessionRecord PeerId)) (a : ChunkHash) :
    requestIds (Function.update records hash rs a) =
      if a = hash then requestIds rs else requestIds (records a) := by
  by_cases ha : a = hash
  · subst ha
    rw [Function.update_self, if_pos rfl]
  · rw [Function.update_of_ne ha, if_neg ha]

section Records

variable [DecidableEq PeerId]

omit [DecidableEq PeerId] in
/-- What is right about one session: nobody has been sent two requests, and every round but one has
reached somebody who was connected. -/
structure Sound (r : SessionRecord PeerId) : Prop where
  once : (r.sent.map Prod.snd).Nodup
  met : ∀ p ∈ r.sent.map Prod.snd, p ∈ r.met
  rounds : r.rounds ≤ r.sent.length + 1

theorem Sound.round {r : SessionRecord PeerId} (h : Sound r) (hrounds : r.rounds ≤ r.sent.length)
    {sent : List (ℕ × PeerId)} {connected : List PeerId} (honce : (sent.map Prod.snd).Nodup)
    (hnew : ∀ p ∈ sent.map Prod.snd, p ∈ connected ∧ p ∉ r.sent.map Prod.snd) :
    Sound (r.round sent connected) where
  once := by
    rw [SessionRecord.round, List.map_append]
    refine List.nodup_append.2 ⟨honce, h.once, ?_⟩
    rintro p hp q hq rfl
    exact (hnew p hp).2 hq
  met p hp := by
    rw [SessionRecord.round, List.map_append] at hp
    rcases List.mem_append.1 hp with hp | hp
    · exact Finset.mem_union_right _ (List.mem_toFinset.2 (hnew p hp).1)
    · exact Finset.mem_union_left _ (h.met p hp)
  rounds := by
    simp only [SessionRecord.round, List.length_append]
    omega

/-- There are at most one more rounds than peers have been met. -/
theorem Sound.rounds_le {r : SessionRecord PeerId} (h : Sound r) : r.rounds ≤ r.met.card + 1 := by
  have hsub : (r.sent.map Prod.snd).toFinset ⊆ r.met := fun p hp =>
    h.met p (List.mem_toFinset.1 hp)
  calc r.rounds ≤ r.sent.length + 1 := h.rounds
    _ = (r.sent.map Prod.snd).toFinset.card + 1 := by
      rw [List.toFinset_card_of_nodup h.once, List.length_map]
    _ ≤ r.met.card + 1 := Nat.succ_le_succ (Finset.card_le_card hsub)

omit [DecidableEq PeerId] in
/-- What is right about all of them: also, no id has been used for two requests. -/
structure Recorded (records : ChunkHash → List (SessionRecord PeerId)) (used : List ℕ) : Prop where
  sound : ∀ h, ∀ r ∈ records h, Sound r
  nodup : ∀ h, (requestIds (records h)).Nodup
  disjoint : ∀ a b, a ≠ b → (requestIds (records a)).Disjoint (requestIds (records b))
  used : ∀ h, ∀ id ∈ requestIds (records h), id ∈ used

omit [DecidableEq PeerId] in
theorem Recorded.open {records : ChunkHash → List (SessionRecord PeerId)} {used : List ℕ}
    (h : Recorded records used) (hash : ChunkHash) :
    Recorded (Function.update records hash (⟨[], 0, ∅⟩ :: records hash)) used := by
  have hids : ∀ a, requestIds (Function.update records hash (⟨[], 0, ∅⟩ :: records hash) a) =
      requestIds (records a) := by
    intro a
    rw [requestIds_update]
    split_ifs with ha
    · rw [ha, requestIds_cons]
      rfl
    · rfl
  refine ⟨fun a r hr => ?_, fun a => ?_, fun a b hab => ?_, fun a => ?_⟩
  · by_cases ha : a = hash
    · subst ha
      rw [Function.update_self] at hr
      rcases List.mem_cons.1 hr with rfl | hr
      · exact ⟨List.nodup_nil, fun p hp => absurd hp List.not_mem_nil, Nat.zero_le _⟩
      · exact h.sound a r hr
    · rw [Function.update_of_ne ha] at hr
      exact h.sound a r hr
  · rw [hids]
    exact h.nodup a
  · rw [hids, hids]
    exact h.disjoint a b hab
  · rw [hids]
    exact h.used a

/-- A round of the latest session, with new ids for peers it has not asked. -/
theorem Recorded.round {records : ChunkHash → List (SessionRecord PeerId)} {used : List ℕ}
    (h : Recorded records used) {hash : ChunkHash} {r : SessionRecord PeerId}
    {rs : List (SessionRecord PeerId)} (hr : records hash = r :: rs)
    (hrounds : r.rounds ≤ r.sent.length) {sent : List (ℕ × PeerId)} {connected : List PeerId}
    (hids : (sent.map Prod.fst).Nodup) (hfresh : ∀ id ∈ sent.map Prod.fst, id ∉ used)
    (honce : (sent.map Prod.snd).Nodup)
    (hnew : ∀ p ∈ sent.map Prod.snd, p ∈ connected ∧ p ∉ r.sent.map Prod.snd) :
    Recorded (Function.update records hash (r.round sent connected :: rs))
      (sent.map Prod.fst ++ used) := by
  have hself : requestIds (r.round sent connected :: rs) =
      sent.map Prod.fst ++ requestIds (records hash) := by
    rw [hr, requestIds_cons, requestIds_cons, SessionRecord.round, List.map_append,
      List.append_assoc]
  have hapart : ∀ a, (sent.map Prod.fst).Disjoint (requestIds (records a)) := fun a id hid hold =>
    hfresh id hid (h.used a id hold)
  refine ⟨fun a q hq => ?_, fun a => ?_, fun a b hab => ?_, fun a id hid => ?_⟩
  · by_cases ha : a = hash
    · subst ha
      rw [Function.update_self] at hq
      have hall := h.sound a
      rw [hr] at hall
      rcases List.mem_cons.1 hq with rfl | hq
      · exact (hall r List.mem_cons_self).round hrounds honce hnew
      · exact hall q (List.mem_cons_of_mem r hq)
    · rw [Function.update_of_ne ha] at hq
      exact h.sound a q hq
  · rw [requestIds_update]
    split_ifs with ha
    · rw [hself]
      exact List.nodup_append'.2 ⟨hids, h.nodup hash, hapart hash⟩
    · exact h.nodup a
  · rw [requestIds_update, requestIds_update]
    split_ifs with ha hb hb
    · exact absurd (ha.trans hb.symm) hab
    · rw [hself, List.disjoint_append_left]
      exact ⟨hapart b, h.disjoint hash b (Ne.symm hb)⟩
    · rw [hself, List.disjoint_append_right]
      exact ⟨(hapart a).symm, h.disjoint a hash ha⟩
    · exact h.disjoint a b hab
  · rw [requestIds_update] at hid
    split_ifs at hid with ha
    · rw [hself] at hid
      exact (List.mem_append.1 hid).elim (List.mem_append_left _)
        fun hold => List.mem_append_right _ (h.used hash id hold)
    · exact List.mem_append_right _ (h.used a id hid)

end Records

/-! ### The tables -/

/-- A live session and its record: the peers it has tried are those it has sent requests to, its
attempts are among these requests, and every round so far has sent some. -/
structure Tracks (s : FetchSession PeerId) (r : SessionRecord PeerId) : Prop where
  tried : ∀ p, p ∈ s.tried ↔ p ∈ r.sent.map Prod.snd
  attempts : ∀ id p, s.attempts.lookup id = some p → (id, p) ∈ r.sent
  rounds : r.rounds ≤ r.sent.length

/-- What the latest session of a hash has asked of whom. -/
def asked (records : ChunkHash → List (SessionRecord PeerId)) (hash : ChunkHash) :
    List (ℕ × PeerId) := (records hash).head?.elim [] SessionRecord.sent

/-- The tables agree with the records, and each session has the latest record of its hash, in which
every round so far has sent some request. Every session has an attempt, but for those in `o`. -/
structure InvBut (o : ChunkHash → Prop) (t : FetchTables PeerId) : Prop
    extends ChunkFetcher.Tabled o (asked t.records) t.used t.fetcher where
  recorded : Recorded t.records t.used
  live : ∀ h s, t.fetcher.sessions h = some s → ∃ r rs, t.records h = r :: rs ∧
    r.rounds ≤ r.sent.length

/-- The invariant between two calls. -/
abbrev Inv (t : FetchTables PeerId) : Prop := t.InvBut fun _ => False

section Steps

variable {t : FetchTables PeerId} {o : ChunkHash → Prop} {hash : ChunkHash}
  {s s' : FetchSession PeerId}

theorem asked_of_cons {records : ChunkHash → List (SessionRecord PeerId)}
    {r : SessionRecord PeerId} {rs : List (SessionRecord PeerId)} (hr : records hash = r :: rs) :
    asked records hash = r.sent := by
  rw [asked, hr]
  rfl

theorem asked_congr {records records' : ChunkHash → List (SessionRecord PeerId)}
    (h : records' hash = records hash) : asked records' hash = asked records hash := by
  rw [asked, h, asked]

theorem InvBut.mono (h : t.InvBut o) {o' : ChunkHash → Prop} (ho : ∀ a, o a → o' a) :
    t.InvBut o' :=
  { h with toTabled := h.toTabled.mono ho }

/-- The latest record of its hash is that of the session. -/
theorem InvBut.tracks (h : t.InvBut o) (hs : t.fetcher.sessions hash = some s) :
    ∃ r rs, t.records hash = r :: rs ∧ Tracks s r := by
  obtain ⟨r, rs, hr, hrounds⟩ := h.live hash s hs
  refine ⟨r, rs, hr, fun p => ?_, fun id p hp => ?_, hrounds⟩
  · rw [h.tried hash s hs, asked_of_cons hr]
  · exact asked_of_cons hr ▸ h.attempts hash s hs id p hp

/-- Somebody joins a session. -/
theorem InvBut.join (h : t.InvBut o) (hs : t.fetcher.sessions hash = some s)
    (hattempts : s'.attempts = s.attempts) (htried : s'.tried = s.tried) :
    InvBut o { t with fetcher := t.fetcher.setSession hash (some s') } where
  toTabled := h.toTabled.join hs hattempts htried
  recorded := h.recorded
  live a x hx := by
    rcases ChunkFetcher.update_some_cases hx with ⟨rfl, rfl⟩ | ⟨-, hold⟩
    · exact h.live a s hs
    · exact h.live a x hold

/-- A session is opened. -/
theorem InvBut.open (h : t.Inv) (hnone : t.fetcher.sessions hash = none) (waiters : List ℕ)
    (pin : Bool) : InvBut (· = hash) (t.openSession hash ⟨waiters, ∅, [], pin⟩) where
  toTabled := h.toTabled.open hnone waiters pin
    (asked_of_cons (Function.update_self hash _ t.records))
    fun _ ha => asked_congr (Function.update_of_ne ha _ _)
  recorded := h.recorded.open hash
  live a x hx := by
    rcases ChunkFetcher.update_some_cases hx with ⟨ha, -⟩ | ⟨ha, hold⟩
    · exact ⟨⟨[], 0, ∅⟩, t.records hash, ha ▸ Function.update_self _ _ _, le_rfl⟩
    · obtain ⟨r, rs, hr, hrounds⟩ := h.live a x hold
      exact ⟨r, rs, (Function.update_of_ne ha _ _).trans hr, hrounds⟩

/-- An attempt is dropped, with its request. -/
theorem InvBut.drop (h : t.Inv) (hs : t.fetcher.sessions hash = some s) {id : ℕ}
    (hid : id ∈ s.attempts) :
    InvBut (fun a => a = hash ∧ ¬ (s.attempts.erase id).keys.Nonempty)
      { t with
        fetcher := (t.fetcher.removeRequest id).setSession hash
          (some { s with attempts := s.attempts.erase id }) } where
  toTabled := h.toTabled.drop hs hid
  recorded := h.recorded
  live a x hx := by
    rcases ChunkFetcher.update_some_cases hx with ⟨rfl, rfl⟩ | ⟨-, hold⟩
    · exact h.live a s hs
    · exact h.live a x hold

/-- A session ends. -/
theorem InvBut.close (h : t.InvBut (· = hash)) (hs : t.fetcher.sessions hash = some s)
    {f : ChunkFetcher PeerId}
    (hsessions : f.sessions = Function.update t.fetcher.sessions hash none)
    (hrequests : ∀ id, f.requests id = if id ∈ s.attempts then none else t.fetcher.requests id)
    {records : ChunkHash → List (SessionRecord PeerId)} {used : List ℕ}
    (hrecorded : Recorded records used) (hrecords : ∀ a, a ≠ hash → records a = t.records a)
    (hused : t.used ⊆ used) : Inv ⟨f, records, used⟩ where
  toTabled := h.toTabled.close hs hsessions hrequests
    (fun a ha => asked_congr (hrecords a ha)) hused
  recorded := hrecorded
  live a x hx := by
    change f.sessions a = some x at hx
    rw [hsessions] at hx
    rcases ChunkFetcher.update_eq_some.1 hx with ⟨-, hnone⟩ | ⟨ha, hold⟩
    · cases hnone
    · obtain ⟨r, rs, hr, hrounds⟩ := h.live a x hold
      exact ⟨r, rs, (hrecords a ha).trans hr, hrounds⟩

section Walk

variable [DecidableEq PeerId] [PeerBytes PeerId] [Sha256] {c : Surroundings PeerId}

omit [PeerBytes PeerId] [Sha256] in
/-- New requests for a session without attempts, to connected peers that it has not tried. -/
theorem InvBut.ask (h : t.InvBut (· = hash)) (hs : t.fetcher.sessions hash = some s)
    (hempty : ∀ id, id ∉ s.attempts) {r : SessionRecord PeerId} {rs : List (SessionRecord PeerId)}
    (hr : t.records hash = r :: rs) (hrounds : r.rounds ≤ r.sent.length)
    {targets : List (PeerId × ℕ)}
    (hne : targets ≠ []) (hids : (targets.map Prod.snd).Nodup)
    (hfresh : ∀ id ∈ targets.map Prod.snd, id ∉ t.used) (honce : (targets.map Prod.fst).Nodup)
    {connected : List PeerId}
    (hasked : ∀ p ∈ targets.map Prod.fst, p ∈ connected ∧ p ∉ s.tried) :
    Inv ⟨ChunkFetcher.sendPulls hash targets t.fetcher, Function.update t.records hash
      (r.round (targets.map fun x => (x.2, x.1)) connected :: rs),
      (targets.map fun x => (x.2, x.1)).map Prod.fst ++ t.used⟩ := by
  have hfst : (targets.map fun x => (x.2, x.1)).map Prod.fst = targets.map Prod.snd := by
    rw [List.map_map]
    rfl
  have hsnd : (targets.map fun x => (x.2, x.1)).map Prod.snd = targets.map Prod.fst := by
    rw [List.map_map]
    rfl
  have htried : ∀ p, p ∈ s.tried ↔ p ∈ r.sent.map Prod.snd := fun p => by
    rw [h.tried hash s hs, asked_of_cons hr]
  refine ⟨h.toTabled.ask hs hempty hne hfresh ?_
    (fun a ha => asked_congr (Function.update_of_ne ha _ _)) ?_,
    h.recorded.round hr hrounds ?_ ?_ ?_ ?_, fun a x hx => ?_⟩
  · rw [asked_of_cons (Function.update_self hash _ t.records), asked_of_cons hr]
    rfl
  · rw [hfst]
    exact List.Subset.refl _
  · rwa [hfst]
  · rwa [hfst]
  · rwa [hsnd]
  · rw [hsnd]
    exact fun p hp => (hasked p hp).imp_right (mt (htried p).2)
  · obtain ⟨s', hsessions, -⟩ := ChunkFetcher.sendPulls_spec targets hs
    change (ChunkFetcher.sendPulls hash targets t.fetcher).sessions a = some x at hx
    rw [hsessions] at hx
    rcases ChunkFetcher.update_some_cases hx with ⟨rfl, rfl⟩ | ⟨ha, hold⟩
    · refine ⟨r.round _ connected, rs, Function.update_self _ _ _, ?_⟩
      have hpos := List.length_pos_of_ne_nil hne
      simp only [SessionRecord.round, List.length_append, List.length_map]
      omega
    · obtain ⟨q, qs, hq, hqrounds⟩ := h.live a x hold
      exact ⟨q, qs, (Function.update_of_ne ha _ _).trans hq, hqrounds⟩

/-- `walk_down` on a session without attempts gives it new ones, or ends it. -/
theorem InvBut.walk (h : t.InvBut (· = hash)) (hs : t.fetcher.sessions hash = some s)
    (hempty : ∀ id, id ∉ s.attempts) (hoffers : t.Offers c) {now : ℕ} {t' : FetchTables PeerId}
    (hwalk : t.walkDown c now hash = some t') : t'.Inv := by
  obtain ⟨hnodup, hfresh, hids, hconnected⟩ := hoffers
  obtain ⟨r, rs, hr, hrounds⟩ := h.live hash s hs
  rw [walkDown, ChunkFetcher.walkDownUnwrap_eq, hr] at hwalk
  obtain rfl := Option.some.inj hwalk
  by_cases htargets : ChunkFetcher.nextTargets hash c.connected s.tried maxFetchTargets = []
  · -- nobody is left: the last round of the session
    obtain ⟨f, hdone, hsessions, hrequests⟩ := ChunkFetcher.walkDown_done hs htargets now
    rw [hdone]
    refine h.close hs hsessions (fun id => ?_) (h.recorded.round hr hrounds
      List.nodup_nil (fun id hid => absurd hid List.not_mem_nil) List.nodup_nil
      fun p hp => absurd hp List.not_mem_nil) (fun a ha => Function.update_of_ne ha _ _)
      (List.subset_append_right _ _)
    rw [hrequests, if_neg (hempty id)]
  · obtain ⟨targets, hpeers, hfirst, hmore⟩ :=
      ChunkFetcher.walkDown_targets hs htargets hids now
    rw [hmore]
    dsimp only
    have hsent : (targets.map fun x => (⟨x.2, x.1, hash⟩ : PullChunk PeerId)).map
        (fun m => (m.requestId, m.peer)) = targets.map fun x => (x.2, x.1) := by
      rw [List.map_map]
      rfl
    rw [hsent]
    refine h.ask hs hempty hr hrounds ?_ (hfirst.sublist.nodup hnodup)
      (fun id hid => hfresh id (hfirst.subset hid)) ?_ fun p hp => ?_
    · rintro rfl
      exact htargets hpeers.symm
    · rw [hpeers]
      exact ChunkFetcher.nodup_nextTargets hconnected _ _
    · exact ChunkFetcher.of_mem_nextTargets (hpeers ▸ hp)

/-! ### The calls -/

theorem inv_fetchChunk (h : t.Inv) (hoffers : t.Offers c) {reply : Option ℕ} {pin : Bool}
    {t' : FetchTables PeerId} (hcall : t.fetchChunk c hash reply pin = some t') : t'.Inv := by
  unfold fetchChunk at hcall
  cases hs : t.fetcher.sessions hash with
  | some s =>
    rw [hs] at hcall
    obtain rfl := Option.some.inj hcall
    exact h.join hs rfl rfl
  | none =>
    rw [hs] at hcall
    dsimp only at hcall
    split_ifs at hcall
    · obtain rfl := Option.some.inj hcall
      exact h
    · exact (h.open hs reply.toList pin).walk (Function.update_self _ _ _)
        (fun _ => Finmap.notMem_empty) hoffers hcall

/-- The failure of an attempt. -/
theorem inv_onAttemptFailed (h : t.Inv) (hoffers : t.Offers c) {id : ℕ}
    (hrequest : t.fetcher.requests id = some hash) {t' : FetchTables PeerId}
    (hcall : onAttemptFailed c hash id { t with fetcher := t.fetcher.removeRequest id } =
      some t') : t'.Inv := by
  obtain ⟨s, hs, hid⟩ := (h.indexed id hash).1 hrequest
  have hs' : (t.fetcher.removeRequest id).sessions hash = some s := hs
  unfold onAttemptFailed at hcall
  dsimp only at hcall
  rw [hs'] at hcall
  dsimp only at hcall
  split_ifs at hcall with hrest
  · obtain rfl := Option.some.inj hcall
    exact (h.drop hs hid).mono fun a ha => ha.2 hrest
  · refine ((h.drop hs hid).mono fun a ha => ha.1).walk (Function.update_self _ _ _)
      (fun x hx => ?_) hoffers hcall
    exact hrest ⟨x, Finmap.mem_keys.2 hx⟩

theorem inv_handleFailure (h : t.Inv) (hoffers : t.Offers c) {id : ℕ} {t' : FetchTables PeerId}
    (hcall : t.handleFailure c id = some t') : t'.Inv := by
  unfold handleFailure at hcall
  cases hrequest : t.fetcher.requests id with
  | none =>
    rw [hrequest] at hcall
    obtain rfl := Option.some.inj hcall
    exact h
  | some hash =>
    rw [hrequest] at hcall
    exact inv_onAttemptFailed h hoffers hrequest hcall

variable [CrdtTree PeerId]

theorem inv_handleResponse (h : t.Inv) (hoffers : t.Offers c) {id : ℕ} {data : Bytes}
    {fs : FileSystem PeerId} {t' : FetchTables PeerId}
    (hcall : t.handleResponse c id data fs = some t') : t'.Inv := by
  unfold handleResponse at hcall
  cases hrequest : t.fetcher.requests id with
  | none =>
    rw [hrequest] at hcall
    obtain rfl := Option.some.inj hcall
    exact h
  | some hash =>
    rw [hrequest] at hcall
    dsimp only at hcall
    split_ifs at hcall with hne
    · exact inv_onAttemptFailed h hoffers hrequest hcall
    · -- the session has its chunk
      obtain ⟨s, hs, hid⟩ := (h.indexed id hash).1 hrequest
      have hs' : (t.fetcher.removeRequest id).sessions hash = some s := hs
      rw [hs'] at hcall
      obtain rfl := Option.some.inj hcall
      obtain ⟨f, fs', hfinish, hsessions, hrequests⟩ := ChunkFetcher.finish_spec c hash data s
        (t.fetcher.removeRequest id) fs
      rw [hfinish]
      refine (h.mono fun _ => False.elim).close hs hsessions (fun x => ?_) h.recorded
        (fun a _ => rfl) (List.Subset.refl _)
      rw [hrequests]
      split_ifs with hx
      · rfl
      · exact Function.update_of_ne (by rintro rfl; exact hx hid) _ _

/-- **Every call keeps the tables in step.** -/
theorem inv_step {e : Surroundings PeerId × FetchCall PeerId} {t' : FetchTables PeerId}
    (h : t.Inv) (hstep : tableStep e t = some t') : t'.Inv := by
  obtain ⟨c, e⟩ := e
  unfold tableStep at hstep
  split_ifs at hstep with hoffers
  cases e with
  | fetchChunk hash reply pin => exact inv_fetchChunk h hoffers hstep
  | handleResponse id data fs => exact inv_handleResponse h hoffers hstep
  | handleFailure id => exact inv_handleFailure h hoffers hstep

end Walk

end Steps

/-! ### All runs -/

theorem inv_new : (new : FetchTables PeerId).Inv where
  toTabled := ChunkFetcher.tabled_new
  recorded := ⟨fun _ _ hr => absurd hr List.not_mem_nil, fun _ => List.nodup_nil,
    fun _ _ _ _ hid => absurd hid List.not_mem_nil, fun _ _ hid => absurd hid List.not_mem_nil⟩
  live _ _ hs := by cases hs

/-- The requests of a session that is over are forgotten. -/
theorem InvBut.requests_ended {t : FetchTables PeerId} {o : ChunkHash → Prop} (h : t.InvBut o)
    {hash : ChunkHash} {r : SessionRecord PeerId} (hr : r ∈ t.ended hash) {x : ℕ × PeerId}
    (hx : x ∈ r.sent) : t.fetcher.requests x.1 = none := by
  refine Option.eq_none_iff_forall_ne_some.2 fun a ha => ?_
  -- otherwise it is an attempt of a live session, which has another record
  obtain ⟨s, hs, hid⟩ := (h.indexed x.1 a).1 ha
  obtain ⟨q, qs, hq, htracks⟩ := h.tracks hs
  obtain ⟨p, hp⟩ := Option.isSome_iff_exists.1 (Finmap.lookup_isSome.2 hid)
  have hlive : x.1 ∈ q.sent.map Prod.fst :=
    List.mem_map.2 ⟨(x.1, p), htracks.attempts x.1 p hp, rfl⟩
  by_cases hhash : a = hash
  · subst hhash
    rw [ended, hs, hq] at hr
    have hnodup := h.recorded.nodup a
    rw [hq, requestIds_cons] at hnodup
    exact List.disjoint_of_nodup_append hnodup hlive (mem_requestIds hr hx)
  · have hover : r ∈ t.records hash := by
      unfold ended at hr
      split_ifs at hr
      · exact List.mem_of_mem_tail hr
      · exact hr
    have hin : x.1 ∈ requestIds (t.records a) := by
      rw [hq, requestIds_cons]
      exact List.mem_append_left _ hlive
    exact h.recorded.disjoint a hash hhash hin (mem_requestIds hover hx)

section Runs

variable [DecidableEq PeerId] [PeerBytes PeerId] [Sha256] [CrdtTree PeerId]

/-- **The fetch tables stay consistent.** After any calls the requests are exactly the attempts of
the live sessions, no two of which share one. A live session has an attempt; its attempts are at
different peers, all of which it has tried; and its record is the latest of its hash. No session,
live or over, has sent a peer two requests, or has had more than one round more than it has met
peers at its rounds. Nothing comes of the requests of a session that is over. And every next call
returns, so its `unwrap` does not fail. -/
theorem fetch_tables {calls : List (Surroundings PeerId × FetchCall PeerId)}
    {t : FetchTables PeerId} (hrun : run tableStep calls new = some t) :
    (∀ id h, t.fetcher.requests id = some h ↔
      ∃ s, t.fetcher.sessions h = some s ∧ id ∈ s.attempts) ∧
    (∀ a b s s', t.fetcher.sessions a = some s → t.fetcher.sessions b = some s' → a ≠ b →
      Disjoint s.attempts.keys s'.attempts.keys) ∧
    (∀ h s, t.fetcher.sessions h = some s → s.attempts.keys.Nonempty ∧
      (∀ id p, s.attempts.lookup id = some p → p ∈ s.tried) ∧
      (∀ id id' p, s.attempts.lookup id = some p → s.attempts.lookup id' = some p → id = id') ∧
      ∃ r rs, t.records h = r :: rs ∧ Tracks s r) ∧
    (∀ h, ∀ r ∈ t.records h, (r.sent.map Prod.snd).Nodup ∧ r.rounds ≤ r.met.card + 1) ∧
    (∀ h, ∀ r ∈ t.ended h, ∀ x ∈ r.sent, ∀ c,
      (∀ data fs, t.fetcher.handleResponse c x.1 data fs = (t.fetcher, fs, .none)) ∧
      t.fetcher.handleFailure c x.1 = (t.fetcher, .none)) ∧
    ∀ e, t.Offers e.1 → ∃ t', tableStep e t = some t' ∧ t'.fetcher = t.fetcher.after e.1 e.2 := by
  have h : t.Inv := run_invariant (fun _ _ _ h hstep => inv_step h hstep) inv_new hrun
  refine ⟨h.indexed, fun a b s s' hs hs' hab => ?_, fun a s hs => ?_, fun a r hr => ?_,
    fun a r hr x hx c => ?_, fun e hoffers => ?_⟩
  · refine Finset.disjoint_left.2 fun id hid hid' => hab ?_
    exact h.indexed.hash_eq hs hs' (Finmap.mem_keys.1 hid) (Finmap.mem_keys.1 hid')
  · obtain ⟨r, rs, hr, htracks⟩ := h.tracks hs
    have honce := (h.recorded.sound a r (hr ▸ List.mem_cons_self)).once
    refine ⟨h.nonempty a s hs not_false, fun id p hp => ?_, fun id id' p hp hp' => ?_,
      r, rs, hr, htracks⟩
    · exact (htracks.tried p).2 (List.mem_map.2 ⟨(id, p), htracks.attempts id p hp, rfl⟩)
    · exact congrArg Prod.fst (List.inj_on_of_nodup_map honce (htracks.attempts id p hp)
        (htracks.attempts id' p hp') rfl)
  · have hsound := h.recorded.sound a r hr
    exact ⟨hsound.once, hsound.rounds_le⟩
  · have hnone := h.requests_ended hr hx
    refine ⟨fun data fs => ?_, ?_⟩
    · rw [ChunkFetcher.handleResponse, hnone]
    · rw [ChunkFetcher.handleFailure, hnone]
  · obtain ⟨t', ht', hfetcher⟩ := Option.map_eq_some_iff.1 (call_fetcher e.1 t e.2)
    exact ⟨t', (if_pos hoffers).trans ht', hfetcher⟩

end Runs

section Example

open Reference

/-- Peers 0, 1 and 2 are connected, and the next requests get the ids from `id` on. -/
def offered (id : ℕ) : Surroundings ℕ := ⟨[0, 1, 2], [id, id + 1, id + 2], fun _ => 0⟩

/-- All three peers fail, which ends the session, and the chunk is wanted again. -/
def reopened : List (Surroundings ℕ × FetchCall ℕ) :=
  [(offered 0, .fetchChunk ⟨[7]⟩ (some 10) false), (offered 3, .handleFailure 0),
    (offered 3, .handleFailure 1), (offered 3, .handleFailure 2),
    (offered 3, .fetchChunk ⟨[7]⟩ (some 11) false)]

/-- The second session has three attempts, and nothing comes of the requests of the first. -/
theorem fetch_tables_reopened :
    ∃ t, run tableStep reopened new = some t ∧ (∃ s, t.fetcher.sessions ⟨[7]⟩ = some s ∧
        s.attempts.keys.Nonempty) ∧
      (∃ r ∈ t.ended ⟨[7]⟩, r.rounds = 2 ∧ r.rounds ≤ r.met.card + 1) ∧
      t.fetcher.handleFailure (offered 6) 1 = (t.fetcher, .none) := by
  have hrun : run tableStep reopened new = some _ := rfl
  obtain ⟨-, -, hlive, hrecords, hended, -⟩ := fetch_tables hrun
  refine ⟨_, hrun, ⟨_, rfl, (hlive ⟨[7]⟩ _ rfl).1⟩, ?_, ?_⟩
  · exact ⟨_, List.mem_cons_self, rfl, (hrecords ⟨[7]⟩ _ (List.mem_cons_of_mem _
      List.mem_cons_self)).2⟩
  · exact (hended ⟨[7]⟩ _ List.mem_cons_self (1, 1) (by decide) (offered 6)).2

end Example

end FetchTables

end Edfs
