import Edfs.Filesystem.Capacity
import Edfs.Network.ChunkFetcher

/-!
# Fetching what a connected peer has

Sessions for chunks of which some connected peer has a copy, when a peer that has a chunk always
sends it. Such a session never runs out of peers to ask: whoever has the chunk is asked at last,
and what has been tried of those is still being waited for. So it ends with the chunk, which goes
into the pinned store.

* `Pursues`: what the fetcher keeps; which of its requests are under way is an argument;
* `Pursues.walk`, `Pursues.fetchChunk`, `Pursues.handleFailure`, `Pursues.handleResponse`.
-/

namespace Edfs.ChunkFetcher

variable {PeerId : Type}

/-- All sessions are for chunks to be pinned that `available` names. Their attempts are requests
under way, and a peer that `holds` the chunk and has been tried is among those asked. Sessions but
those in `o` have attempts. -/
structure Pursues (available : ChunkHash → Prop) (holds : PeerId → ChunkHash → Prop)
    (asking : Set (PullChunk PeerId)) (o : ChunkHash → Prop) (f : ChunkFetcher PeerId) : Prop
    extends Attempting o f where
  session : ∀ h s, f.sessions h = some s → available h ∧ s.pin = true
  attempts : ∀ h s, f.sessions h = some s → ∀ id ∈ s.attempts,
    ∃ r ∈ asking, r.requestId = id ∧ r.hash = h
  tried : ∀ h s, f.sessions h = some s → ∀ q ∈ s.tried, holds q h →
    ∃ r ∈ asking, r.peer = q ∧ r.hash = h ∧ r.requestId ∈ s.attempts

/-- Requests for a chunk, to connected peers and under new ids. -/
structure Asks (c : Surroundings PeerId) (hash : ChunkHash) (sent : List (PullChunk PeerId)) :
    Prop where
  hash : ∀ r ∈ sent, r.hash = hash
  peer : ∀ r ∈ sent, r.peer ∈ c.connected
  fresh : ∀ r ∈ sent, r.requestId ∈ c.ids
  distinct : ∀ r ∈ sent, ∀ r' ∈ sent, r.requestId = r'.requestId → r = r'

variable {available : ChunkHash → Prop} {holds : PeerId → ChunkHash → Prop}
  {asking : Set (PullChunk PeerId)} {o : ChunkHash → Prop} {f : ChunkFetcher PeerId}
  {c : Surroundings PeerId} {hash : ChunkHash} {s : FetchSession PeerId}

theorem asks_nil : Asks c hash [] :=
  ⟨fun _ h => absurd h List.not_mem_nil, fun _ h => absurd h List.not_mem_nil,
    fun _ h => absurd h List.not_mem_nil, fun _ h => absurd h List.not_mem_nil⟩

theorem pursues_idle (hsessions : ∀ h, f.sessions h = none) (hrequests : ∀ id, f.requests id = none)
    (available : ChunkHash → Prop) (holds : PeerId → ChunkHash → Prop)
    (asking : Set (PullChunk PeerId)) : f.Pursues available holds asking fun _ => False where
  session h s hs := by cases (hsessions h).symm.trans hs
  nonempty h s hs := by cases (hsessions h).symm.trans hs
  attempts h s hs := by cases (hsessions h).symm.trans hs
  tried h s hs := by cases (hsessions h).symm.trans hs
  indexed id h := by
    refine iff_of_false (fun hr => by cases (hrequests id).symm.trans hr) ?_
    rintro ⟨s, hs, -⟩
    cases (hsessions h).symm.trans hs

theorem Pursues.mono (h : f.Pursues available holds asking o) {asking' : Set (PullChunk PeerId)}
    {o' : ChunkHash → Prop} (hasking : ∀ r ∈ asking, r ∈ asking') (ho : ∀ a, o a → o' a) :
    f.Pursues available holds asking' o' where
  toAttempting := h.toAttempting.mono ho
  session := h.session
  attempts a t ht id hid := by
    obtain ⟨r, hr, hrest⟩ := h.attempts a t ht id hid
    exact ⟨r, hasking r hr, hrest⟩
  tried a t ht q hq hholds := by
    obtain ⟨r, hr, hrest⟩ := h.tried a t ht q hq hholds
    exact ⟨r, hasking r hr, hrest⟩

/-- A session is opened, or goes on with the same attempts. -/
theorem Pursues.replace (h : f.Pursues available holds asking o) (s' : FetchSession PeerId)
    (hsession : available hash ∧ s'.pin = true)
    (hattempts : ∀ id, id ∈ s'.attempts ↔ ∃ s, f.sessions hash = some s ∧ id ∈ s.attempts)
    (htried : ∀ q ∈ s'.tried, ∃ s, f.sessions hash = some s ∧ q ∈ s.tried) :
    (f.setSession hash (some s')).Pursues available holds asking
      fun a => o a ∨ a = hash ∧ ¬ s'.attempts.keys.Nonempty where
  toAttempting := h.toAttempting.replace hattempts
  session a t ht := by
    rcases update_some_cases ht with ⟨rfl, rfl⟩ | ⟨-, hold⟩
    · exact hsession
    · exact h.session a t hold
  attempts a t ht id hid := by
    rcases update_some_cases ht with ⟨rfl, rfl⟩ | ⟨-, hold⟩
    · obtain ⟨s, hs, hid⟩ := (hattempts id).1 hid
      exact h.attempts a s hs id hid
    · exact h.attempts a t hold id hid
  tried a t ht q hq hholds := by
    rcases update_some_cases ht with ⟨rfl, rfl⟩ | ⟨-, hold⟩
    · obtain ⟨s, hs, hq⟩ := htried q hq
      obtain ⟨r, hr, hpeer, hhash, hid⟩ := h.tried a s hs q hq hholds
      exact ⟨r, hr, hpeer, hhash, (hattempts _).2 ⟨s, hs, hid⟩⟩
    · exact h.tried a t hold q hq hholds

section

variable [DecidableEq PeerId] [PeerBytes PeerId] [Sha256]

/-! ### Asking the next peers -/

/-- What `walk_down` asks. -/
theorem asks_walkDown (hnodup : c.ids.Nodup) (now : ℕ) :
    Asks c hash (walkDown c now hash f).2.sent := by
  unfold walkDown
  cases hs : f.sessions hash with
  | none => exact asks_nil
  | some s =>
    dsimp only
    split_ifs with htargets
    · exact asks_nil
    · exact asks_nil
    · set targets := nextTargets hash c.connected s.tried maxFetchTargets
      have hmem : ∀ r ∈ (targets.zip c.ids).map fun t => (⟨t.2, t.1, hash⟩ : PullChunk PeerId),
          ∃ t ∈ targets.zip c.ids, r = ⟨t.2, t.1, hash⟩ := fun r hr => by
        obtain ⟨t, ht, rfl⟩ := List.mem_map.1 hr
        exact ⟨t, ht, rfl⟩
      have hsnd : ((targets.zip c.ids).map Prod.snd).Nodup :=
        (zip_ids_start targets c.ids).sublist.nodup hnodup
      refine ⟨fun r hr => ?_, fun r hr => ?_, fun r hr => ?_, fun r hr r' hr' hid => ?_⟩
      · obtain ⟨t, -, rfl⟩ := hmem r hr
        rfl
      · obtain ⟨t, ht, rfl⟩ := hmem r hr
        have hin := List.mem_of_mem_take (List.of_mem_zip ht).1
        exact (Ranking.top_length_perm c.connected).mem_iff.1 (List.mem_filter.1 hin).1
      · obtain ⟨t, ht, rfl⟩ := hmem r hr
        exact (List.of_mem_zip ht).2
      · obtain ⟨t, ht, rfl⟩ := hmem r hr
        obtain ⟨t', ht', rfl⟩ := hmem r' hr'
        rw [List.inj_on_of_nodup_map hsnd ht ht' hid]

/-- **A session without attempts asks the next peers**, as somebody is left to ask. -/
theorem Pursues.walk (h : f.Pursues available holds asking (· = hash))
    (hs : f.sessions hash = some s) (hempty : ∀ id, id ∉ s.attempts)
    (hids : maxFetchTargets ≤ c.ids.length) (hfresh : ∀ r ∈ asking, r.requestId ∉ c.ids)
    (hholder : ∃ q ∈ c.connected, holds q hash) (now : ℕ) :
    (walkDown c now hash f).1.Pursues available holds
        (asking ∪ {r | r ∈ (walkDown c now hash f).2.sent}) (fun _ => False) ∧
      ∀ a, (f.sessions a).isSome → ((walkDown c now hash f).1.sessions a).isSome := by
  have htargets : nextTargets hash c.connected s.tried maxFetchTargets ≠ [] := by
    intro hnil
    obtain ⟨q, hq, hholds⟩ := hholder
    obtain ⟨r, -, -, -, hr⟩ := h.tried hash s hs q (nextTargets_eq_nil.1 hnil q hq) hholds
    exact hempty _ hr
  obtain ⟨targets, hne, hfirst, hwalk⟩ := walkDown_more hs htargets hids now
  obtain ⟨s', hsessions, -, hpin, htried, hattempts, hrequests⟩ := sendPulls_spec targets hs
  rw [hwalk]
  dsimp only
  have hself : (sendPulls hash targets f).sessions hash = some s' := by
    rw [hsessions, Function.update_self]
  have hnew : ∀ id, id ∈ s'.attempts ↔ id ∈ targets.map Prod.snd := fun id => by
    rw [hattempts, or_iff_right (hempty id)]
  have hsent : ∀ t ∈ targets, (⟨t.2, t.1, hash⟩ : PullChunk PeerId) ∈
      asking ∪ {r | r ∈ targets.map fun t => (⟨t.2, t.1, hash⟩ : PullChunk PeerId)} :=
    fun t ht => Or.inr (List.mem_map.2 ⟨t, ht, rfl⟩)
  refine ⟨⟨?_, fun a t ht => ?_, fun a t ht id hid => ?_, fun a t ht q hq hholds => ?_⟩,
    fun a ha => ?_⟩
  · refine h.toAttempting.ask hs hempty (mt List.map_eq_nil_iff.1 hne) (fun id hid => ?_) hsessions
      hrequests hnew
    refine Option.eq_none_iff_forall_ne_some.2 fun a ha => ?_
    obtain ⟨t, ht, hidt⟩ := (h.indexed id a).1 ha
    obtain ⟨r, hr, rfl, -⟩ := h.attempts a t ht id hidt
    exact hfresh r hr (hfirst.subset hid)
  · rw [hsessions] at ht
    rcases update_some_cases ht with ⟨rfl, rfl⟩ | ⟨-, hold⟩
    · rw [hpin]
      exact h.session a s hs
    · exact h.session a t hold
  · rw [hsessions] at ht
    rcases update_some_cases ht with ⟨rfl, rfl⟩ | ⟨-, hold⟩
    · obtain ⟨target, hmem, rfl⟩ := List.mem_map.1 ((hnew id).1 hid)
      exact ⟨_, hsent target hmem, rfl, rfl⟩
    · obtain ⟨r, hr, hrest⟩ := h.attempts a t hold id hid
      exact ⟨r, Or.inl hr, hrest⟩
  · rw [hsessions] at ht
    rcases update_some_cases ht with ⟨rfl, rfl⟩ | ⟨-, hold⟩
    · rcases (htried q).1 hq with hq | hq
      · obtain ⟨r, -, -, -, hr⟩ := h.tried a s hs q hq hholds
        exact absurd hr (hempty _)
      · obtain ⟨target, hmem, rfl⟩ := List.mem_map.1 hq
        exact ⟨_, hsent target hmem, rfl, rfl, (hnew _).2 (List.mem_map_of_mem hmem)⟩
    · obtain ⟨r, hr, hrest⟩ := h.tried a t hold q hq hholds
      exact ⟨r, Or.inl hr, hrest⟩
  · by_cases hahash : a = hash
    · subst hahash
      rw [hself]
      rfl
    · rw [hsessions, Function.update_of_ne hahash]
      exact ha

/-- What a command to fetch a chunk asks. -/
theorem asks_fetchChunk (hnodup : c.ids.Nodup) (reply : Option ℕ) (pin : Bool) :
    Asks c hash (f.fetchChunk c hash reply pin).2.sent := by
  unfold ChunkFetcher.fetchChunk
  cases hs : f.sessions hash with
  | some s => exact asks_nil
  | none =>
    dsimp only
    split_ifs
    · exact asks_nil
    · exact asks_walkDown hnodup _

/-- **A command to fetch and pin a chunk** opens a session, or finds one. -/
theorem Pursues.fetchChunk (h : f.Pursues available holds asking fun _ => False)
    (havailable : available hash) (hids : maxFetchTargets ≤ c.ids.length)
    (hfresh : ∀ r ∈ asking, r.requestId ∉ c.ids) (hholder : ∃ q ∈ c.connected, holds q hash) :
    (f.fetchChunk c hash none true).1.Pursues available holds
        (asking ∪ {r | r ∈ (f.fetchChunk c hash none true).2.sent}) (fun _ => False) ∧
      ∀ a, (f.sessions a).isSome ∨ a = hash →
        ((f.fetchChunk c hash none true).1.sessions a).isSome := by
  have hthere : ∀ s' a, (f.sessions a).isSome ∨ a = hash →
      ((f.setSession hash (some s')).sessions a).isSome := by
    intro s' a ha
    by_cases hahash : a = hash
    · rw [hahash]
      exact congrArg Option.isSome (Function.update_self hash (some s') f.sessions)
    · refine (congrArg Option.isSome (Function.update_of_ne hahash (some s') f.sessions)).trans ?_
      exact ha.resolve_right hahash
  unfold ChunkFetcher.fetchChunk
  cases hs : f.sessions hash with
  | some s =>
    -- the command joins a session
    have hjoined := h.replace { s with
        waiters := s.waiters ++ []
        pin := s.pin || true } ⟨havailable, Bool.or_true _⟩
      (fun id => ⟨fun hid => ⟨s, hs, hid⟩, fun ⟨t, ht, hid⟩ => by
        cases hs.symm.trans ht
        exact hid⟩)
      (fun q hq => ⟨s, hs, hq⟩)
    refine ⟨hjoined.mono (fun r hr => Or.inl hr) fun a ha => ?_, fun a ha => hthere _ a ha⟩
    exact ha.elim id fun ha => ha.2 (h.nonempty hash s hs not_false)
  | none =>
    have hopened := h.replace ⟨[], ∅, [], true⟩ ⟨havailable, rfl⟩
      (fun id => iff_of_false Finmap.notMem_empty fun ⟨t, ht, _⟩ => by cases hs.symm.trans ht)
      (fun q hq => absurd hq List.not_mem_nil)
    obtain ⟨hpursues, hkept⟩ := (hopened.mono (fun r hr => hr) fun a ha =>
      ha.elim False.elim And.left).walk (Function.update_self _ _ _)
        (fun _ => Finmap.notMem_empty) hids hfresh hholder (c.now 1)
    exact ⟨hpursues, fun a ha => hkept a (hthere _ a ha)⟩

/-! ### The end of a request -/

section Outcome

variable {r : PullChunk PeerId}

omit [DecidableEq PeerId] [PeerBytes PeerId] [Sha256] in
/-- Nobody waits for a request that is not recorded. -/
theorem Pursues.forget (h : f.Pursues available holds asking o)
    (hnone : f.requests r.requestId = none) : f.Pursues available holds (asking \ {r}) o := by
  have hother : ∀ a t, f.sessions a = some t → ∀ r' ∈ asking, r'.requestId ∈ t.attempts →
      r' ∈ asking \ {r} := by
    intro a t ht r' hr' hid
    refine ⟨hr', ?_⟩
    rintro rfl
    cases hnone.symm.trans ((h.indexed _ a).2 ⟨t, ht, hid⟩)
  refine ⟨h.toAttempting, h.session, fun a t ht id hid => ?_, fun a t ht q hq hholds => ?_⟩
  · obtain ⟨r', hr', rfl, hhash⟩ := h.attempts a t ht id hid
    exact ⟨r', hother a t ht r' hr' hid, rfl, hhash⟩
  · obtain ⟨r', hr', hpeer, hhash, hid⟩ := h.tried a t ht q hq hholds
    exact ⟨r', hother a t ht r' hr' hid, hpeer, hhash, hid⟩

omit [DecidableEq PeerId] [PeerBytes PeerId] [Sha256] in
/-- A request that is recorded is an attempt of the session for its hash. -/
theorem Pursues.recorded (h : f.Pursues available holds asking o)
    (hdistinct : ∀ r' ∈ asking, r'.requestId = r.requestId → r' = r) {a : ChunkHash}
    (hsome : f.requests r.requestId = some a) :
    a = r.hash ∧ ∃ s, f.sessions r.hash = some s ∧ r.requestId ∈ s.attempts := by
  obtain ⟨s, hs, hid⟩ := (h.indexed _ _).1 hsome
  obtain ⟨r', hr', hid', rfl⟩ := h.attempts a s hs _ hid
  obtain rfl := hdistinct r' hr' hid'
  exact ⟨rfl, s, hs, hid⟩

omit [PeerBytes PeerId] [Sha256] [DecidableEq PeerId] in
/-- The other requests of a fetcher whose request `r` is dropped. -/
theorem Pursues.other (h : f.Pursues available holds asking o)
    (hs : f.sessions r.hash = some s) (hr : r.requestId ∈ s.attempts) {a : ChunkHash}
    {t : FetchSession PeerId} (ha : a ≠ r.hash) (ht : f.sessions a = some t) {id : ℕ}
    (hid : id ∈ t.attempts) : id ≠ r.requestId := by
  rintro rfl
  exact ha (Indexed.hash_eq h.indexed ht hs hid hr)

omit [PeerBytes PeerId] [Sha256] [DecidableEq PeerId] in
/-- A request that has failed is dropped: its peer does not have the chunk. -/
theorem Pursues.drop (h : f.Pursues available holds asking fun _ => False)
    (hdistinct : ∀ r' ∈ asking, r'.requestId = r.requestId → r' = r)
    (hnot : ¬ holds r.peer r.hash) (hs : f.sessions r.hash = some s)
    (hr : r.requestId ∈ s.attempts) :
    ((f.removeRequest r.requestId).setSession r.hash
        (some { s with attempts := s.attempts.erase r.requestId })).Pursues available holds
      (asking \ {r})
      fun a => a = r.hash ∧ ¬ (s.attempts.erase r.requestId).keys.Nonempty := by
  have hother : ∀ r' ∈ asking, r'.requestId ≠ r.requestId → r' ∈ asking \ {r} := by
    intro r' hr' hid
    refine ⟨hr', ?_⟩
    rintro rfl
    exact hid rfl
  refine ⟨h.toAttempting.drop hs hr, fun a t ht => ?_, fun a t ht id hid => ?_,
    fun a t ht q hq hholds => ?_⟩
  · rcases update_some_cases ht with ⟨rfl, rfl⟩ | ⟨-, hold⟩
    · exact h.session _ s hs
    · exact h.session a t hold
  · rcases update_some_cases ht with ⟨rfl, rfl⟩ | ⟨ha, hold⟩
    · obtain ⟨hne, hid⟩ := Finmap.mem_erase.1 hid
      obtain ⟨r', hr', rfl, hhash⟩ := h.attempts _ s hs id hid
      exact ⟨r', hother r' hr' hne, rfl, hhash⟩
    · obtain ⟨r', hr', rfl, hhash⟩ := h.attempts a t hold id hid
      exact ⟨r', hother r' hr' (h.other hs hr ha hold hid), rfl, hhash⟩
  · rcases update_some_cases ht with ⟨rfl, rfl⟩ | ⟨ha, hold⟩
    · obtain ⟨r', hr', rfl, hhash, hid⟩ := h.tried _ s hs q hq hholds
      have hne : r'.requestId ≠ r.requestId := by
        intro heq
        obtain rfl := hdistinct r' hr' heq
        exact hnot hholds
      exact ⟨r', hother r' hr' hne, rfl, hhash, Finmap.mem_erase.2 ⟨hne, hid⟩⟩
    · obtain ⟨r', hr', hpeer, hhash, hid⟩ := h.tried a t hold q hq hholds
      exact ⟨r', hother r' hr' (h.other hs hr ha hold hid), hpeer, hhash, hid⟩

/-- **An error** comes from a peer without the chunk; the session goes on. -/
theorem Pursues.handleFailure (h : f.Pursues available holds asking fun _ => False)
    (hdistinct : ∀ r' ∈ asking, r'.requestId = r.requestId → r' = r)
    (hnot : ¬ holds r.peer r.hash) (hids : maxFetchTargets ≤ c.ids.length)
    (hfresh : ∀ r ∈ asking, r.requestId ∉ c.ids)
    (hholder : ∀ a, available a → ∃ q ∈ c.connected, holds q a) :
    (f.handleFailure c r.requestId).1.Pursues available holds
        ((asking \ {r}) ∪ {r' | r' ∈ (f.handleFailure c r.requestId).2.sent}) (fun _ => False) ∧
      ∀ a, (f.sessions a).isSome → ((f.handleFailure c r.requestId).1.sessions a).isSome := by
  unfold ChunkFetcher.handleFailure
  cases hrequest : f.requests r.requestId with
  | none => exact ⟨(h.forget hrequest).mono (fun r' hr' => Or.inl hr') fun _ => id, fun _ => id⟩
  | some a =>
    obtain ⟨rfl, s, hs, hr⟩ := h.recorded hdistinct hrequest
    have hdrop := h.drop hdistinct hnot hs hr
    have hthere : ∀ a, (f.sessions a).isSome → (((f.removeRequest r.requestId).setSession r.hash
        (some { s with attempts := s.attempts.erase r.requestId })).sessions a).isSome := by
      intro a ha
      by_cases hahash : a = r.hash
      · rw [hahash]
        exact congrArg Option.isSome (Function.update_self r.hash _ f.sessions)
      · exact (congrArg Option.isSome (Function.update_of_ne hahash _ f.sessions)).trans ha
    have hs' : (f.removeRequest r.requestId).sessions r.hash = some s := hs
    unfold onAttemptFailed
    dsimp only
    rw [hs']
    dsimp only
    split_ifs with hrest
    · exact ⟨hdrop.mono (fun r' hr' => Or.inl hr') fun a ha => ha.2 hrest, hthere⟩
    · obtain ⟨hpursues, hkept⟩ := (hdrop.mono (fun r' hr' => hr') fun a ha => ha.1).walk
        (Function.update_self _ _ _) (fun x hx => hrest ⟨x, Finmap.mem_keys.2 hx⟩) hids
        (fun r' hr' => hfresh r' hr'.1) (hholder r.hash (h.session _ s hs).1) (c.now 0)
      exact ⟨hpursues, fun a ha => hkept a (hthere a ha)⟩

/-- What is asked when a request has failed. -/
theorem Pursues.asks_handleFailure (h : f.Pursues available holds asking o)
    (hdistinct : ∀ r' ∈ asking, r'.requestId = r.requestId → r' = r) (hnodup : c.ids.Nodup) :
    Asks c r.hash (f.handleFailure c r.requestId).2.sent := by
  unfold ChunkFetcher.handleFailure
  cases hrequest : f.requests r.requestId with
  | none => exact asks_nil
  | some a =>
    obtain ⟨rfl, -⟩ := h.recorded hdistinct hrequest
    unfold onAttemptFailed
    dsimp only
    cases hs : (f.removeRequest r.requestId).sessions r.hash with
    | none => exact asks_nil
    | some s =>
      dsimp only
      split_ifs
      · exact asks_nil
      · exact asks_walkDown hnodup _

variable [CrdtTree PeerId] {fs : FileSystem PeerId} {data : Bytes} {size : ChunkHash → ℕ}
  {live wanted : Finset ChunkHash}

/-- **The bytes of the chunk** end the session, and are pinned. -/
theorem Pursues.handleResponse (h : f.Pursues available holds asking fun _ => False)
    (hdistinct : ∀ r' ∈ asking, r'.requestId = r.requestId → r' = r)
    (hdata : ChunkHash.of data = r.hash) (hlength : data.length ≤ size r.hash)
    (hwanted : ∀ a, available a → a ∈ wanted) (hroomy : fs.Roomy size live wanted) :
    ∃ f' fs' answers, f.handleResponse c r.requestId data fs = (f', fs', ⟨[], answers⟩) ∧
      f'.Pursues available holds (asking \ {r}) (fun _ => False) ∧
      fs.Repairs fs' ∧ fs'.Roomy size live wanted ∧
      ∀ a, (f.sessions a).isSome → (f'.sessions a).isSome ∨ fs'.isPinned a := by
  unfold ChunkFetcher.handleResponse
  cases hrequest : f.requests r.requestId with
  | none => exact ⟨f, fs, [], rfl, h.forget hrequest, .refl fs, hroomy, fun _ => Or.inl⟩
  | some a =>
    obtain ⟨rfl, s, hs, hr⟩ := h.recorded hdistinct hrequest
    obtain ⟨havailable, hpin⟩ := h.session _ s hs
    have hs' : (f.removeRequest r.requestId).sessions r.hash = some s := hs
    obtain ⟨fs', hpinned, hthere, hrepairs, hroomy'⟩ := hroomy.pinChunk (d := data)
      (hdata ▸ hwanted _ havailable) (hdata.symm ▸ hlength)
    dsimp only
    rw [if_neg (not_not.2 hdata), hs']
    dsimp only
    rw [finish, if_pos hpin, hpinned]
    refine ⟨_, fs', _, rfl, ⟨?_, fun a t ht => ?_, fun a t ht id hid => ?_,
      fun a t ht q hq hholds => ?_⟩, hrepairs, hroomy', fun a ha => ?_⟩
    · -- the requests of the session are forgotten
      refine (h.toAttempting.mono fun _ => False.elim).close hs rfl fun id => ?_
      by_cases hid : id ∈ s.attempts
      · exact (if_pos hid).trans (if_pos hid).symm
      · have hne : id ≠ r.requestId := by
          rintro rfl
          exact hid hr
        refine (if_neg hid).trans ?_
        rw [if_neg hid]
        exact Function.update_of_ne hne _ _
    · rcases update_eq_some.1 ht with ⟨-, heq⟩ | ⟨-, hold⟩
      · cases heq
      · exact h.session a t hold
    · rcases update_eq_some.1 ht with ⟨-, heq⟩ | ⟨ha, hold⟩
      · cases heq
      · obtain ⟨r', hr', rfl, hhash⟩ := h.attempts a t hold id hid
        refine ⟨r', ⟨hr', ?_⟩, rfl, hhash⟩
        rintro rfl
        exact ha hhash.symm
    · rcases update_eq_some.1 ht with ⟨-, heq⟩ | ⟨ha, hold⟩
      · cases heq
      · obtain ⟨r', hr', hpeer, hhash, hid⟩ := h.tried a t hold q hq hholds
        refine ⟨r', ⟨hr', ?_⟩, hpeer, hhash, hid⟩
        rintro rfl
        exact ha hhash.symm
    · by_cases hahash : a = r.hash
      · exact Or.inr (hahash.trans hdata.symm ▸ hthere)
      · exact Or.inl ((congrArg Option.isSome (Function.update_of_ne hahash _ _)).trans ha)

end Outcome

end

end Edfs.ChunkFetcher
