import Edfs.Filesystem.FileSystem
import Edfs.Network.Hrw

/-!
# Fetching chunks

`network/handlers/chunk.rs` on one node. A session asks up to three peers at a time for a chunk, the
best ranked ones first, until one of them sends bytes with the right hash or none is left to ask;
those who want the chunk meanwhile wait for the session. The ids of new requests and the clock come
from the surroundings of a call, and whom the node is connected to.

* `fetchChunk`, `walkDown`, `handleResponse`, `handleFailure` and `ChunkHandler.handle`, as the
  source computes them;
* `Indexed`: the recorded requests are the attempts of the sessions; `Attempting`, and every session
  has one; the steps that keep it so;
* `nextTargets_eq_nil`, `walkDown_done`, `walkDown_more`, `sendPulls_spec`: when `walk_down` ends a
  session, and what it does otherwise;
* `Tabled`: the tables agree with what has been asked of whom; what each step does to them.
-/

namespace Edfs

/-- `CHUNK_FETCH_BACKOFF`, in milliseconds. -/
def chunkFetchBackoff : ℕ := 5000

def maxFetchTargets : ℕ := 3

inductive ProtocolError
  | chunkNotFound
  deriving DecidableEq

inductive Response (PeerId : Type)
  | chunkData (data : Bytes)
  | heldChunks (hashes : List ChunkHash)
  | missingOperations (operations : List (NodeOperation PeerId))
  | error (e : ProtocolError)
  deriving DecidableEq

/-- `Request::PullChunk`, with the id of the request and whom it is sent to. -/
structure PullChunk (PeerId : Type) where
  requestId : ℕ
  peer : PeerId
  hash : ChunkHash
  deriving DecidableEq

/-- A session. The waiters stand for the senders of their replies. -/
structure FetchSession (PeerId : Type) where
  waiters : List ℕ
  attempts : Finmap fun _ : ℕ => PeerId
  tried : List PeerId
  pin : Bool

structure ChunkFetcher (PeerId : Type) where
  sessions : ChunkHash → Option (FetchSession PeerId)
  requests : ℕ → Option ChunkHash
  blockedUntil : ChunkHash → Option ℕ

/-- What a call finds around it: the connected peers, the ids the next requests get, and the
readings of the clock. -/
structure Surroundings (PeerId : Type) where
  connected : List PeerId
  ids : List ℕ
  now : ℕ → ℕ

/-- What a call does beside changing the fetcher: the requests it sends and the waiters it
answers. -/
structure FetchOutput (PeerId : Type) where
  sent : List (PullChunk PeerId)
  answers : List (ℕ × Option Bytes)

def FetchOutput.none {PeerId : Type} : FetchOutput PeerId := ⟨[], []⟩

namespace ChunkFetcher

variable {PeerId : Type}

/-- `ChunkFetcher::default`. -/
def new : ChunkFetcher PeerId := ⟨fun _ => none, fun _ => none, fun _ => none⟩

def isBlocked (f : ChunkFetcher PeerId) (hash : ChunkHash) (now : ℕ) : Bool :=
  (f.blockedUntil hash).any fun until_ => now < until_

def setSession (f : ChunkFetcher PeerId) (hash : ChunkHash)
    (session : Option (FetchSession PeerId)) : ChunkFetcher PeerId :=
  { f with sessions := Function.update f.sessions hash session }

/-- Do not fetch a chunk again for a while. -/
def block (f : ChunkFetcher PeerId) (hash : ChunkHash) (now : ℕ) : ChunkFetcher PeerId :=
  { f with
    blockedUntil := Function.update f.blockedUntil hash (some (now + chunkFetchBackoff)) }

/-- The loop of `walk_down` over the targets, each with the id its request gets. -/
def sendPulls [DecidableEq PeerId] (hash : ChunkHash) :
    List (PeerId × ℕ) → ChunkFetcher PeerId → ChunkFetcher PeerId
  | [], f => f
  | (peer, requestId) :: targets, f =>
    let f := match f.sessions hash with
      | some session =>
        f.setSession hash (some
          { session with
            attempts := session.attempts.insert requestId peer
            tried := session.tried.insert peer })
      | none => f
    sendPulls hash targets
      { f with requests := Function.update f.requests requestId (some hash) }

variable [PeerBytes PeerId] [Sha256]

section

variable [DecidableEq PeerId]

def nextTargets (hash : ChunkHash) (connected tried : List PeerId) (limit : ℕ) : List PeerId :=
  ((topPeers hash connected connected.length).filter (· ∉ tried)).take limit

def walkDown (c : Surroundings PeerId) (now : ℕ) (hash : ChunkHash) (f : ChunkFetcher PeerId) :
    ChunkFetcher PeerId × FetchOutput PeerId :=
  match f.sessions hash with
  | none => (f, .none)
  | some session =>
    let targets := nextTargets hash c.connected session.tried maxFetchTargets
    if targets = [] then
      let f := f.setSession hash none
      (if session.pin then f.block hash now else f, ⟨[], session.waiters.map (·, none)⟩)
    else
      (sendPulls hash (targets.zip c.ids) f,
        ⟨(targets.zip c.ids).map fun t => ⟨t.2, t.1, hash⟩, []⟩)

def fetchChunk (c : Surroundings PeerId) (hash : ChunkHash) (reply : Option ℕ) (pin : Bool)
    (f : ChunkFetcher PeerId) : ChunkFetcher PeerId × FetchOutput PeerId :=
  match f.sessions hash with
  | some session =>
    (f.setSession hash (some
      { session with
        waiters := session.waiters ++ reply.toList
        pin := session.pin || pin }), .none)
  | none =>
    if !pin && f.isBlocked hash (c.now 0) then (f, ⟨[], reply.toList.map (·, none)⟩)
    else walkDown c (c.now 1) hash (f.setSession hash (some ⟨reply.toList, ∅, [], pin⟩))

def onAttemptFailed (c : Surroundings PeerId) (hash : ChunkHash) (requestId : ℕ)
    (f : ChunkFetcher PeerId) : ChunkFetcher PeerId × FetchOutput PeerId :=
  match f.sessions hash with
  | none => (f, .none)
  | some session =>
    let attempts := session.attempts.erase requestId
    let f := f.setSession hash (some { session with attempts := attempts })
    if attempts.keys.Nonempty then (f, .none) else walkDown c (c.now 0) hash f

/-- `requests.remove`. -/
def removeRequest (f : ChunkFetcher PeerId) (requestId : ℕ) : ChunkFetcher PeerId :=
  { f with requests := Function.update f.requests requestId none }

def handleFailure (c : Surroundings PeerId) (requestId : ℕ) (f : ChunkFetcher PeerId) :
    ChunkFetcher PeerId × FetchOutput PeerId :=
  match f.requests requestId with
  | none => (f, .none)
  | some hash => onAttemptFailed c hash requestId (f.removeRequest requestId)

variable [CrdtTree PeerId]

/-- A response with the right bytes: end the session, keep the chunk and answer the waiters. -/
def finish (c : Surroundings PeerId) (hash : ChunkHash) (data : Bytes)
    (session : FetchSession PeerId) (f : ChunkFetcher PeerId) (fs : FileSystem PeerId) :
    ChunkFetcher PeerId × FileSystem PeerId × FetchOutput PeerId :=
  let f := f.setSession hash none
  let f := { f with
    requests := fun id => if id ∈ session.attempts then none else f.requests id }
  let answers := session.waiters.map (·, some data)
  if session.pin then
    match fs.pinChunk data with
    | (.ok _, fs) => (f, fs, ⟨[], answers⟩)
    | (.error _, fs) => (f.block hash (c.now 0), fs.cacheChunk data, ⟨[], answers⟩)
  else (f, fs.cacheChunk data, ⟨[], answers⟩)

def handleResponse (c : Surroundings PeerId) (requestId : ℕ) (data : Bytes)
    (f : ChunkFetcher PeerId) (fs : FileSystem PeerId) :
    ChunkFetcher PeerId × FileSystem PeerId × FetchOutput PeerId :=
  match f.requests requestId with
  | none => (f, fs, .none)
  | some hash =>
    let f := f.removeRequest requestId
    if ChunkHash.of data ≠ hash then
      let (f, out) := onAttemptFailed c hash requestId f
      (f, fs, out)
    else
      match f.sessions hash with
      | none => (f, fs, .none)
      | some session => finish c hash data session f fs

end

/-! ### The requests and their sessions -/

omit [PeerBytes PeerId] [Sha256] in
/-- The sessions there are when one of them has changed. -/
theorem update_eq_some {sessions : ChunkHash → Option (FetchSession PeerId)} {a b : ChunkHash}
    {v : Option (FetchSession PeerId)} {s : FetchSession PeerId} :
    Function.update sessions a v b = some s ↔ b = a ∧ v = some s ∨ b ≠ a ∧ sessions b = some s := by
  by_cases hb : b = a
  · subst hb
    simp
  · simp [hb]

omit [PeerBytes PeerId] [Sha256] in
/-- The sessions there are when one of them has been replaced. -/
theorem update_some_cases {sessions : ChunkHash → Option (FetchSession PeerId)} {a b : ChunkHash}
    {s t : FetchSession PeerId} (h : Function.update sessions a (some s) b = some t) :
    b = a ∧ t = s ∨ b ≠ a ∧ sessions b = some t :=
  (update_eq_some.1 h).imp_left (And.imp_right fun hs => (Option.some.inj hs).symm)

/-- The recorded requests are the attempts of the sessions. -/
def Indexed (f : ChunkFetcher PeerId) : Prop :=
  ∀ id hash, f.requests id = some hash ↔ ∃ s, f.sessions hash = some s ∧ id ∈ s.attempts

section Indexed

variable {f : ChunkFetcher PeerId} {hash : ChunkHash} {s : FetchSession PeerId}

omit [PeerBytes PeerId] [Sha256] in
/-- A request is an attempt of one session. -/
theorem Indexed.hash_eq (h : f.Indexed) {a b : ChunkHash} {s t : FetchSession PeerId}
    (ha : f.sessions a = some s) (hb : f.sessions b = some t) {id : ℕ} (hs : id ∈ s.attempts)
    (ht : id ∈ t.attempts) : a = b := by
  have hida := (h id a).2 ⟨s, ha, hs⟩
  have hidb := (h id b).2 ⟨t, hb, ht⟩
  exact Option.some.inj (hida.symm.trans hidb)

omit [PeerBytes PeerId] [Sha256] in
/-- A session is opened, or goes on with the same attempts. -/
theorem Indexed.replace (h : f.Indexed) {s' : FetchSession PeerId}
    (hattempts : ∀ id, id ∈ s'.attempts ↔ ∃ s, f.sessions hash = some s ∧ id ∈ s.attempts) :
    (f.setSession hash (some s')).Indexed := by
  intro id a
  refine (h id a).trans ?_
  constructor
  · rintro ⟨t, ht, hid⟩
    by_cases ha : a = hash
    · subst ha
      exact ⟨s', update_eq_some.2 (Or.inl ⟨rfl, rfl⟩), (hattempts id).2 ⟨t, ht, hid⟩⟩
    · exact ⟨t, update_eq_some.2 (Or.inr ⟨ha, ht⟩), hid⟩
  · rintro ⟨t, ht, hid⟩
    rcases update_some_cases ht with ⟨rfl, rfl⟩ | ⟨-, hold⟩
    · exact (hattempts id).1 hid
    · exact ⟨t, hold, hid⟩

omit [PeerBytes PeerId] [Sha256] in
/-- New requests for a session without attempts are its attempts. -/
theorem Indexed.ask (h : f.Indexed) (hs : f.sessions hash = some s)
    (hempty : ∀ id, id ∉ s.attempts) {ids : List ℕ} (hfresh : ∀ id ∈ ids, f.requests id = none)
    {f' : ChunkFetcher PeerId} {s' : FetchSession PeerId}
    (hsessions : f'.sessions = Function.update f.sessions hash (some s'))
    (hrequests : ∀ id, f'.requests id = if id ∈ ids then some hash else f.requests id)
    (hattempts : ∀ id, id ∈ s'.attempts ↔ id ∈ ids) : f'.Indexed := by
  intro id a
  rw [hrequests, hsessions]
  split_ifs with hid
  · rw [Option.some_inj]
    constructor
    · rintro rfl
      exact ⟨s', Function.update_self _ _ _, (hattempts id).2 hid⟩
    · rintro ⟨t, ht, hidt⟩
      rcases update_some_cases ht with ⟨ha, -⟩ | ⟨-, hold⟩
      · exact ha.symm
      · cases (hfresh id hid).symm.trans ((h id a).2 ⟨t, hold, hidt⟩)
  · rw [h id a]
    constructor
    · rintro ⟨t, ht, hidt⟩
      refine ⟨t, update_eq_some.2 (Or.inr ⟨?_, ht⟩), hidt⟩
      rintro rfl
      cases hs.symm.trans ht
      exact hempty id hidt
    · rintro ⟨t, ht, hidt⟩
      rcases update_some_cases ht with ⟨-, rfl⟩ | ⟨-, hold⟩
      · exact absurd ((hattempts id).1 hidt) hid
      · exact ⟨t, hold, hidt⟩

omit [PeerBytes PeerId] [Sha256] in
/-- A request is dropped, and its attempt with it. -/
theorem Indexed.drop (h : f.Indexed) (hs : f.sessions hash = some s) {id : ℕ}
    (hid : id ∈ s.attempts) :
    ((f.removeRequest id).setSession hash
      (some { s with attempts := s.attempts.erase id })).Indexed := by
  intro x a
  change Function.update f.requests id none x = some a ↔ _
  by_cases hx : x = id
  · subst hx
    rw [Function.update_self]
    refine iff_of_false (fun hnone => by cases hnone) ?_
    rintro ⟨t, ht, hxt⟩
    rcases update_some_cases ht with ⟨-, rfl⟩ | ⟨ha, hold⟩
    · exact (Finmap.mem_erase.1 hxt).1 rfl
    · exact ha (h.hash_eq hold hs hxt hid)
  · rw [Function.update_of_ne hx, h x a]
    constructor
    · rintro ⟨t, ht, hxt⟩
      by_cases ha : a = hash
      · subst ha
        cases hs.symm.trans ht
        exact ⟨_, update_eq_some.2 (Or.inl ⟨rfl, rfl⟩), Finmap.mem_erase.2 ⟨hx, hxt⟩⟩
      · exact ⟨t, update_eq_some.2 (Or.inr ⟨ha, ht⟩), hxt⟩
    · rintro ⟨t, ht, hxt⟩
      rcases update_some_cases ht with ⟨rfl, rfl⟩ | ⟨-, hold⟩
      · exact ⟨s, hs, (Finmap.mem_erase.1 hxt).2⟩
      · exact ⟨t, hold, hxt⟩

omit [PeerBytes PeerId] [Sha256] in
/-- A session ends, and its requests are forgotten. -/
theorem Indexed.close (h : f.Indexed) (hs : f.sessions hash = some s) {f' : ChunkFetcher PeerId}
    (hsessions : f'.sessions = Function.update f.sessions hash none)
    (hrequests : ∀ id, f'.requests id = if id ∈ s.attempts then none else f.requests id) :
    f'.Indexed := by
  intro id a
  rw [hrequests, hsessions]
  split_ifs with hid
  · refine iff_of_false (fun hnone => by cases hnone) ?_
    rintro ⟨t, ht, hidt⟩
    rcases update_eq_some.1 ht with ⟨-, hnone⟩ | ⟨ha, hold⟩
    · cases hnone
    · exact ha (h.hash_eq hold hs hidt hid)
  · rw [h id a]
    constructor
    · rintro ⟨t, ht, hidt⟩
      refine ⟨t, update_eq_some.2 (Or.inr ⟨?_, ht⟩), hidt⟩
      rintro rfl
      cases hs.symm.trans ht
      exact hid hidt
    · rintro ⟨t, ht, hidt⟩
      rcases update_eq_some.1 ht with ⟨-, hnone⟩ | ⟨-, hold⟩
      · cases hnone
      · exact ⟨t, hold, hidt⟩

end Indexed

/-- The requests are the attempts of the sessions. Every session has an attempt, but for those in
`o`. -/
structure Attempting (o : ChunkHash → Prop) (f : ChunkFetcher PeerId) : Prop where
  indexed : f.Indexed
  nonempty : ∀ h s, f.sessions h = some s → ¬ o h → s.attempts.keys.Nonempty

section Attempting

variable {f : ChunkFetcher PeerId} {o : ChunkHash → Prop} {hash : ChunkHash}
  {s : FetchSession PeerId}

omit [PeerBytes PeerId] [Sha256] in
theorem Attempting.mono (h : f.Attempting o) {o' : ChunkHash → Prop} (ho : ∀ a, o a → o' a) :
    f.Attempting o' :=
  ⟨h.indexed, fun a t ht hnot => h.nonempty a t ht (mt (ho a) hnot)⟩

omit [PeerBytes PeerId] [Sha256] in
/-- A session is opened, or goes on with the same attempts. -/
theorem Attempting.replace (h : f.Attempting o) {s' : FetchSession PeerId}
    (hattempts : ∀ id, id ∈ s'.attempts ↔ ∃ s, f.sessions hash = some s ∧ id ∈ s.attempts) :
    (f.setSession hash (some s')).Attempting
      fun a => o a ∨ a = hash ∧ ¬ s'.attempts.keys.Nonempty where
  indexed := h.indexed.replace hattempts
  nonempty a t ht hnot := by
    rcases update_some_cases ht with ⟨rfl, rfl⟩ | ⟨-, hold⟩
    · exact not_not.1 fun hempty => hnot (Or.inr ⟨rfl, hempty⟩)
    · exact h.nonempty a t hold fun ha => hnot (Or.inl ha)

omit [PeerBytes PeerId] [Sha256] in
/-- New requests for a session without attempts are its attempts. -/
theorem Attempting.ask (h : f.Attempting (· = hash)) (hs : f.sessions hash = some s)
    (hempty : ∀ id, id ∉ s.attempts) {ids : List ℕ} (hne : ids ≠ [])
    (hfresh : ∀ id ∈ ids, f.requests id = none) {f' : ChunkFetcher PeerId}
    {s' : FetchSession PeerId}
    (hsessions : f'.sessions = Function.update f.sessions hash (some s'))
    (hrequests : ∀ id, f'.requests id = if id ∈ ids then some hash else f.requests id)
    (hattempts : ∀ id, id ∈ s'.attempts ↔ id ∈ ids) : f'.Attempting fun _ => False where
  indexed := h.indexed.ask hs hempty hfresh hsessions hrequests hattempts
  nonempty a t ht _ := by
    rw [hsessions] at ht
    rcases update_some_cases ht with ⟨rfl, rfl⟩ | ⟨ha, hold⟩
    · obtain ⟨id, hid⟩ := List.exists_mem_of_ne_nil _ hne
      exact ⟨id, Finmap.mem_keys.2 ((hattempts id).2 hid)⟩
    · exact h.nonempty a t hold ha

omit [PeerBytes PeerId] [Sha256] in
/-- A request is dropped, and its attempt with it. -/
theorem Attempting.drop (h : f.Attempting fun _ => False) (hs : f.sessions hash = some s) {id : ℕ}
    (hid : id ∈ s.attempts) :
    ((f.removeRequest id).setSession hash
      (some { s with attempts := s.attempts.erase id })).Attempting
        fun a => a = hash ∧ ¬ (s.attempts.erase id).keys.Nonempty where
  indexed := h.indexed.drop hs hid
  nonempty a t ht hnot := by
    rcases update_some_cases ht with ⟨rfl, rfl⟩ | ⟨-, hold⟩
    · exact not_not.1 fun hempty => hnot ⟨rfl, hempty⟩
    · exact h.nonempty a t hold not_false

omit [PeerBytes PeerId] [Sha256] in
/-- A session ends, and its requests are forgotten. -/
theorem Attempting.close (h : f.Attempting (· = hash)) (hs : f.sessions hash = some s)
    {f' : ChunkFetcher PeerId} (hsessions : f'.sessions = Function.update f.sessions hash none)
    (hrequests : ∀ id, f'.requests id = if id ∈ s.attempts then none else f.requests id) :
    f'.Attempting fun _ => False where
  indexed := h.indexed.close hs hsessions hrequests
  nonempty a t ht _ := by
    rw [hsessions] at ht
    rcases update_eq_some.1 ht with ⟨-, hnone⟩ | ⟨ha, hold⟩
    · cases hnone
    · exact h.nonempty a t hold ha

end Attempting

/-! ### What the calls do -/

section

variable [DecidableEq PeerId]

/-- No target is left when all connected peers have been tried. -/
theorem nextTargets_eq_nil {hash : ChunkHash} {connected tried : List PeerId} :
    nextTargets hash connected tried maxFetchTargets = [] ↔ ∀ p ∈ connected, p ∈ tried := by
  have hperm : (topPeers hash connected connected.length).Perm connected :=
    Ranking.top_length_perm connected
  rw [nextTargets, List.take_eq_nil_iff, or_iff_right (by decide), List.filter_eq_nil_iff]
  simp only [decide_eq_true_eq, not_not, hperm.mem_iff]

/-- The targets are connected and have not been tried. -/
theorem of_mem_nextTargets {hash : ChunkHash} {connected tried : List PeerId} {limit : ℕ}
    {p : PeerId} (h : p ∈ nextTargets hash connected tried limit) : p ∈ connected ∧ p ∉ tried := by
  obtain ⟨htop, hnot⟩ := List.mem_filter.1 (List.mem_of_mem_take h)
  exact ⟨(Ranking.top_length_perm connected).mem_iff.1 htop, of_decide_eq_true hnot⟩

/-- No target comes twice. -/
theorem nodup_nextTargets {hash : ChunkHash} {connected : List PeerId} (h : connected.Nodup)
    (tried : List PeerId) (limit : ℕ) : (nextTargets hash connected tried limit).Nodup :=
  (((Ranking.top_length_perm connected).nodup_iff.2 h).filter _).sublist (List.take_sublist _ _)

omit [PeerBytes PeerId] [Sha256] in
/-- Sending requests for a session: they are its attempts, and their peers are tried. -/
theorem sendPulls_spec {hash : ChunkHash} (targets : List (PeerId × ℕ)) {f : ChunkFetcher PeerId}
    {session : FetchSession PeerId} (hs : f.sessions hash = some session) :
    ∃ session', (sendPulls hash targets f).sessions =
        Function.update f.sessions hash (some session') ∧
      session'.waiters = session.waiters ∧ session'.pin = session.pin ∧
      (∀ p, p ∈ session'.tried ↔ p ∈ session.tried ∨ p ∈ targets.map Prod.fst) ∧
      (∀ id, id ∈ session'.attempts ↔ id ∈ session.attempts ∨ id ∈ targets.map Prod.snd) ∧
      ∀ id, (sendPulls hash targets f).requests id =
        if id ∈ targets.map Prod.snd then some hash else f.requests id := by
  induction targets generalizing f session with
  | nil =>
    refine ⟨session, ?_, rfl, rfl, by simp, by simp, by simp [sendPulls]⟩
    rw [sendPulls, ← hs, Function.update_eq_self]
  | cons target targets ih =>
    obtain ⟨peer, requestId⟩ := target
    unfold sendPulls
    rw [hs]
    dsimp only
    set session₁ : FetchSession PeerId := { session with
      attempts := session.attempts.insert requestId peer
      tried := session.tried.insert peer } with hsession₁
    have hself : (f.setSession hash (some session₁)).sessions hash = some session₁ :=
      Function.update_self _ _ _
    obtain ⟨session', hsessions, hwaiters, hpin, htried, hattempts, hrequests⟩ :=
      @ih { f.setSession hash (some session₁) with
        requests := Function.update f.requests requestId (some hash) } session₁ hself
    refine ⟨session', ?_, hwaiters, hpin, fun p => ?_, fun id => ?_, fun id => ?_⟩
    · exact hsessions.trans (Function.update_idem _ _ _)
    · rw [htried, hsession₁, List.map_cons, List.mem_cons, List.mem_insert_iff]
      tauto
    · rw [hattempts, hsession₁, List.map_cons, List.mem_cons, Finmap.mem_insert]
      tauto
    · refine (hrequests id).trans ?_
      rw [List.map_cons]
      by_cases hid : id = requestId <;> by_cases hmem : id ∈ targets.map Prod.snd <;>
        simp [hid, hmem]

omit [PeerBytes PeerId] [Sha256] in
/-- An attempt is an old one, or one of the requests sent. -/
theorem lookup_sendPulls {hash : ChunkHash} (targets : List (PeerId × ℕ)) {f : ChunkFetcher PeerId}
    {session session' : FetchSession PeerId} (hs : f.sessions hash = some session)
    (hs' : (sendPulls hash targets f).sessions hash = some session') {id : ℕ} {p : PeerId}
    (h : session'.attempts.lookup id = some p) :
    session.attempts.lookup id = some p ∨ (p, id) ∈ targets := by
  induction targets generalizing f session with
  | nil =>
    cases hs.symm.trans hs'
    exact Or.inl h
  | cons target targets ih =>
    obtain ⟨peer, requestId⟩ := target
    unfold sendPulls at hs'
    rw [hs] at hs'
    dsimp only at hs'
    rcases ih (Function.update_self _ _ _) hs' with hold | hmem
    · by_cases hid : id = requestId
      · subst hid
        rw [Finmap.lookup_insert] at hold
        cases hold
        exact Or.inr List.mem_cons_self
      · rw [Finmap.lookup_insert_of_ne _ hid] at hold
        exact Or.inl hold
    · exact Or.inr (List.mem_cons_of_mem _ hmem)

/-- `walk_down` ends a session when nobody is left to ask. -/
theorem walkDown_done {c : Surroundings PeerId} {hash : ChunkHash} {f : ChunkFetcher PeerId}
    {session : FetchSession PeerId} (hs : f.sessions hash = some session)
    (htargets : nextTargets hash c.connected session.tried maxFetchTargets = []) (now : ℕ) :
    ∃ f', walkDown c now hash f = (f', ⟨[], session.waiters.map (·, none)⟩) ∧
      f'.sessions = Function.update f.sessions hash none ∧ f'.requests = f.requests := by
  refine ⟨if session.pin then (f.setSession hash none).block hash now
    else f.setSession hash none, ?_, ?_, ?_⟩
  · simp [walkDown, hs, htargets]
  · split_ifs <;> rfl
  · split_ifs <;> rfl

omit [PeerBytes PeerId] [Sha256] [DecidableEq PeerId] in
theorem zip_ids_start (peers : List PeerId) (ids : List ℕ) :
    (peers.zip ids).map Prod.snd <+: ids := by
  induction peers generalizing ids with
  | nil => exact List.nil_prefix
  | cons p peers ih =>
    cases ids with
    | nil => exact List.nil_prefix
    | cons id ids => exact (List.prefix_cons_inj id).2 (ih ids)

/-- Otherwise it asks the next targets, under the new ids. -/
theorem walkDown_targets {c : Surroundings PeerId} {hash : ChunkHash} {f : ChunkFetcher PeerId}
    {session : FetchSession PeerId} (hs : f.sessions hash = some session)
    (htargets : nextTargets hash c.connected session.tried maxFetchTargets ≠ [])
    (hids : maxFetchTargets ≤ c.ids.length) (now : ℕ) :
    ∃ targets : List (PeerId × ℕ),
      targets.map Prod.fst = nextTargets hash c.connected session.tried maxFetchTargets ∧
      targets.map Prod.snd <+: c.ids ∧
      walkDown c now hash f = (sendPulls hash targets f,
        ⟨targets.map fun t => ⟨t.2, t.1, hash⟩, []⟩) :=
  ⟨(nextTargets hash c.connected session.tried maxFetchTargets).zip c.ids,
    List.map_fst_zip ((List.length_take_le _ _).trans hids), zip_ids_start _ _,
    by simp only [walkDown, hs, if_neg htargets]⟩

/-- These are some peers. -/
theorem walkDown_more {c : Surroundings PeerId} {hash : ChunkHash} {f : ChunkFetcher PeerId}
    {session : FetchSession PeerId} (hs : f.sessions hash = some session)
    (htargets : nextTargets hash c.connected session.tried maxFetchTargets ≠ [])
    (hids : maxFetchTargets ≤ c.ids.length) (now : ℕ) :
    ∃ targets : List (PeerId × ℕ), targets ≠ [] ∧ targets.map Prod.snd <+: c.ids ∧
      walkDown c now hash f = (sendPulls hash targets f,
        ⟨targets.map fun t => ⟨t.2, t.1, hash⟩, []⟩) := by
  obtain ⟨targets, hpeers, hrest⟩ := walkDown_targets hs htargets hids now
  refine ⟨targets, ?_, hrest⟩
  rintro rfl
  exact htargets hpeers.symm

omit [PeerBytes PeerId] [DecidableEq PeerId] in
/-- Whatever becomes of the chunk, a session that has it ends, and its requests are forgotten. -/
theorem finish_spec [CrdtTree PeerId] (c : Surroundings PeerId) (hash : ChunkHash) (data : Bytes)
    (session : FetchSession PeerId) (f : ChunkFetcher PeerId) (fs : FileSystem PeerId) :
    ∃ f' fs', finish c hash data session f fs =
        (f', fs', ⟨[], session.waiters.map (·, some data)⟩) ∧
      f'.sessions = Function.update f.sessions hash none ∧
      ∀ id, f'.requests id = if id ∈ session.attempts then none else f.requests id := by
  unfold finish
  dsimp only
  split_ifs
  · rcases fs.pinChunk data with ⟨_ | _, fs⟩
    · exact ⟨_, _, rfl, rfl, fun _ => rfl⟩
    · exact ⟨_, _, rfl, rfl, fun _ => rfl⟩
  · exact ⟨_, _, rfl, rfl, fun _ => rfl⟩

end

/-! ### The tables and what has been asked -/

/-- The tables agree with what the latest session of each hash has asked of whom, under ids that
have been used: the peers a session has tried are those it has asked, and its attempts are among
its requests. -/
structure Tabled (o : ChunkHash → Prop) (asked : ChunkHash → List (ℕ × PeerId)) (used : List ℕ)
    (f : ChunkFetcher PeerId) : Prop extends Attempting o f where
  tried : ∀ h s, f.sessions h = some s → ∀ p, p ∈ s.tried ↔ p ∈ (asked h).map Prod.snd
  attempts : ∀ h s, f.sessions h = some s → ∀ id p, s.attempts.lookup id = some p →
    (id, p) ∈ asked h
  used : ∀ h s, f.sessions h = some s → ∀ a ∈ asked h, a.1 ∈ used

section Tabled

variable {f : ChunkFetcher PeerId} {o : ChunkHash → Prop}
  {asked asked' : ChunkHash → List (ℕ × PeerId)} {used used' : List ℕ} {hash : ChunkHash}
  {s s' : FetchSession PeerId}

omit [PeerBytes PeerId] [Sha256] in
theorem tabled_new : (new : ChunkFetcher PeerId).Tabled o (fun _ => []) used where
  indexed _ _ := iff_of_false (fun hr => by cases hr) fun ⟨_, hs, _⟩ => by cases hs
  nonempty _ _ hs := by cases hs
  tried _ _ hs := by cases hs
  attempts _ _ hs := by cases hs
  used _ _ hs := by cases hs

omit [PeerBytes PeerId] [Sha256] in
theorem Tabled.mono (h : f.Tabled o asked used) {o' : ChunkHash → Prop} (ho : ∀ a, o a → o' a) :
    f.Tabled o' asked used :=
  { h with toAttempting := h.toAttempting.mono ho }

omit [PeerBytes PeerId] [Sha256] in
/-- The ids of the attempts have been used. -/
theorem Tabled.attempt_used (h : f.Tabled o asked used) (hs : f.sessions hash = some s) {id : ℕ}
    (hid : id ∈ s.attempts) : id ∈ used := by
  obtain ⟨p, hp⟩ := Option.isSome_iff_exists.1 (Finmap.lookup_isSome.2 hid)
  exact h.used hash s hs _ (h.attempts hash s hs id p hp)

omit [PeerBytes PeerId] [Sha256] in
/-- And so have those of the recorded requests. -/
theorem Tabled.requests_eq_none (h : f.Tabled o asked used) {id : ℕ} (hid : id ∉ used) :
    f.requests id = none := by
  refine Option.eq_none_iff_forall_ne_some.2 fun a ha => ?_
  obtain ⟨s, hs, hids⟩ := (h.indexed id a).1 ha
  exact hid (h.attempt_used hs hids)

omit [PeerBytes PeerId] [Sha256] in
/-- Somebody joins a session. -/
theorem Tabled.join (h : f.Tabled o asked used) (hs : f.sessions hash = some s)
    (hattempts : s'.attempts = s.attempts) (htried : s'.tried = s.tried) :
    (f.setSession hash (some s')).Tabled o asked used where
  indexed := h.indexed.replace fun id => by simp [hs, hattempts]
  nonempty a t ht ho := by
    rcases update_some_cases ht with ⟨rfl, rfl⟩ | ⟨-, hold⟩
    · exact hattempts ▸ h.nonempty a s hs ho
    · exact h.nonempty a t hold ho
  tried a t ht := by
    rcases update_some_cases ht with ⟨rfl, rfl⟩ | ⟨-, hold⟩
    · exact htried ▸ h.tried a s hs
    · exact h.tried a t hold
  attempts a t ht := by
    rcases update_some_cases ht with ⟨rfl, rfl⟩ | ⟨-, hold⟩
    · exact hattempts ▸ h.attempts a s hs
    · exact h.attempts a t hold
  used a t ht := by
    rcases update_some_cases ht with ⟨rfl, rfl⟩ | ⟨-, hold⟩
    · exact h.used a s hs
    · exact h.used a t hold

omit [PeerBytes PeerId] [Sha256] in
/-- A session is opened, and has asked nothing. -/
theorem Tabled.open (h : f.Tabled (fun _ => False) asked used) (hnone : f.sessions hash = none)
    (waiters : List ℕ) (pin : Bool) (hself : asked' hash = [])
    (hother : ∀ a, a ≠ hash → asked' a = asked a) :
    (f.setSession hash (some ⟨waiters, ∅, [], pin⟩)).Tabled (· = hash) asked' used where
  indexed := h.indexed.replace fun id => by simp [hnone, Finmap.notMem_empty]
  nonempty a t ht ha := by
    rcases update_some_cases ht with ⟨rfl, -⟩ | ⟨-, hold⟩
    · exact absurd rfl ha
    · exact h.nonempty a t hold not_false
  tried a t ht p := by
    rcases update_some_cases ht with ⟨rfl, rfl⟩ | ⟨ha, hold⟩
    · rw [hself]
      rfl
    · rw [hother a ha]
      exact h.tried a t hold p
  attempts a t ht id p hp := by
    rcases update_some_cases ht with ⟨rfl, rfl⟩ | ⟨ha, hold⟩
    · rw [Finmap.lookup_empty] at hp
      cases hp
    · rw [hother a ha]
      exact h.attempts a t hold id p hp
  used a t ht x hx := by
    rcases update_some_cases ht with ⟨rfl, -⟩ | ⟨ha, hold⟩
    · rw [hself] at hx
      cases hx
    · exact h.used a t hold x (hother a ha ▸ hx)

omit [PeerBytes PeerId] [Sha256] in
/-- A request is dropped, and its attempt with it. -/
theorem Tabled.drop (h : f.Tabled (fun _ => False) asked used) (hs : f.sessions hash = some s)
    {id : ℕ} (hid : id ∈ s.attempts) :
    ((f.removeRequest id).setSession hash
      (some { s with attempts := s.attempts.erase id })).Tabled
        (fun a => a = hash ∧ ¬ (s.attempts.erase id).keys.Nonempty) asked used where
  toAttempting := h.toAttempting.drop hs hid
  tried a t ht := by
    rcases update_some_cases ht with ⟨rfl, rfl⟩ | ⟨-, hold⟩
    · exact h.tried a s hs
    · exact h.tried a t hold
  attempts a t ht x p hp := by
    rcases update_some_cases ht with ⟨rfl, rfl⟩ | ⟨-, hold⟩
    · have hp' : (s.attempts.erase id).lookup x = some p := hp
      by_cases hx : x = id
      · subst hx
        rw [Finmap.lookup_erase] at hp'
        cases hp'
      · exact h.attempts a s hs x p (Finmap.lookup_erase_ne hx ▸ hp')
    · exact h.attempts a t hold x p hp
  used a t ht := by
    rcases update_some_cases ht with ⟨rfl, rfl⟩ | ⟨-, hold⟩
    · exact h.used a s hs
    · exact h.used a t hold

omit [PeerBytes PeerId] [Sha256] in
/-- A session ends, and its requests are forgotten. -/
theorem Tabled.close (h : f.Tabled (· = hash) asked used) (hs : f.sessions hash = some s)
    {f' : ChunkFetcher PeerId} (hsessions : f'.sessions = Function.update f.sessions hash none)
    (hrequests : ∀ id, f'.requests id = if id ∈ s.attempts then none else f.requests id)
    (hother : ∀ a, a ≠ hash → asked' a = asked a) (hused : used ⊆ used') :
    f'.Tabled (fun _ => False) asked' used' := by
  have hleft : ∀ a t, f'.sessions a = some t → asked' a = asked a ∧ f.sessions a = some t := by
    intro a t ht
    rw [hsessions] at ht
    rcases update_eq_some.1 ht with ⟨-, hnone⟩ | ⟨ha, hold⟩
    · cases hnone
    · exact ⟨hother a ha, hold⟩
  refine ⟨h.toAttempting.close hs hsessions hrequests, fun a t ht => ?_, fun a t ht => ?_,
    fun a t ht => ?_⟩ <;> obtain ⟨heq, hold⟩ := hleft a t ht <;> rw [heq]
  · exact h.tried a t hold
  · exact h.attempts a t hold
  · exact fun x hx => hused (h.used a t hold x hx)

omit [PeerBytes PeerId] [Sha256] in
/-- A session without attempts sends requests under new ids. -/
theorem Tabled.ask [DecidableEq PeerId] (h : f.Tabled (· = hash) asked used)
    (hs : f.sessions hash = some s) (hempty : ∀ id, id ∉ s.attempts)
    {targets : List (PeerId × ℕ)} (hne : targets ≠ [])
    (hfresh : ∀ id ∈ targets.map Prod.snd, id ∉ used)
    (hself : asked' hash = targets.map (fun t => (t.2, t.1)) ++ asked hash)
    (hother : ∀ a, a ≠ hash → asked' a = asked a)
    (hused : targets.map Prod.snd ++ used ⊆ used') :
    (sendPulls hash targets f).Tabled (fun _ => False) asked' used' := by
  obtain ⟨s', hsessions, -, -, htried, hattempts, hrequests⟩ := sendPulls_spec targets hs
  have hnew : ∀ id, id ∈ s'.attempts ↔ id ∈ targets.map Prod.snd := fun id => by
    rw [hattempts, or_iff_right (hempty id)]
  have hsent : (targets.map fun t => (t.2, t.1)).map Prod.snd = targets.map Prod.fst := by
    rw [List.map_map]
    rfl
  have hthere : (sendPulls hash targets f).sessions hash = some s' := by
    rw [hsessions, Function.update_self]
  refine ⟨h.toAttempting.ask hs hempty (mt List.map_eq_nil_iff.1 hne)
    (fun id hid => h.requests_eq_none (hfresh id hid)) hsessions hrequests hnew,
    fun a t ht p => ?_, fun a t ht id p hp => ?_, fun a t ht x hx => ?_⟩
  · rw [hsessions] at ht
    rcases update_some_cases ht with ⟨rfl, rfl⟩ | ⟨ha, hold⟩
    · rw [htried, hself, List.map_append, List.mem_append, hsent, h.tried a s hs]
      exact or_comm
    · rw [hother a ha]
      exact h.tried a t hold p
  · rw [hsessions] at ht
    rcases update_some_cases ht with ⟨rfl, rfl⟩ | ⟨ha, hold⟩
    · rw [hself]
      rcases lookup_sendPulls targets hs hthere hp with hold | hmem
      · exact List.mem_append_right _ (h.attempts a s hs id p hold)
      · exact List.mem_append_left _ (List.mem_map.2 ⟨(p, id), hmem, rfl⟩)
    · rw [hother a ha]
      exact h.attempts a t hold id p hp
  · rw [hsessions] at ht
    refine hused (List.mem_append.2 ?_)
    rcases update_some_cases ht with ⟨rfl, rfl⟩ | ⟨ha, hold⟩
    · rw [hself] at hx
      refine (List.mem_append.1 hx).imp (fun hmem => ?_) (h.used a s hs x)
      obtain ⟨target, htarget, rfl⟩ := List.mem_map.1 hmem
      exact List.mem_map_of_mem htarget
    · rw [hother a ha] at hx
      exact Or.inr (h.used a t hold x hx)

end Tabled

end ChunkFetcher

/-- What `ChunkHandler::handle` looks at. -/
inductive ChunkEvent (PeerId : Type)
  | fetchChunk (hash : ChunkHash) (reply : Option ℕ) (pin : Bool)
  | pullChunk (hash : ChunkHash)
  | response (requestId : ℕ) (r : Response PeerId)
  | outboundFailure (requestId : ℕ)

/-- `ChunkHandler::handle`; to a request of another node it also sends the response `served`. -/
def ChunkHandler.handle {PeerId : Type} [PeerBytes PeerId] [Sha256] [DecidableEq PeerId]
    [CrdtTree PeerId] (c : Surroundings PeerId) :
    ChunkEvent PeerId → ChunkFetcher PeerId → FileSystem PeerId →
      ChunkFetcher PeerId × FileSystem PeerId × FetchOutput PeerId
  | .fetchChunk hash reply pin, f, fs =>
    let (f, out) := f.fetchChunk c hash reply pin
    (f, fs, out)
  | .pullChunk hash, f, fs => (f, (fs.chunk hash).2, .none)
  | .response requestId (.chunkData data), f, fs => f.handleResponse c requestId data fs
  | .response requestId (.error _), f, fs
  | .outboundFailure requestId, f, fs =>
    let (f, out) := f.handleFailure c requestId
    (f, fs, out)
  | _, f, fs => (f, fs, .none)

/-- The response to a `PullChunk` request. -/
def ChunkHandler.served {PeerId : Type} [CrdtTree PeerId] (hash : ChunkHash)
    (fs : FileSystem PeerId) : Response PeerId :=
  match (fs.chunk hash).1 with
  | some data => .chunkData data
  | none => .error .chunkNotFound

end Edfs
