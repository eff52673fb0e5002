import Edfs.Base.Simulation
import Edfs.Network.Correlation
import Edfs.Network.FetchCompletion

/-!
# Fetches in the cluster

The program runs the fetches. On each node the chunk handler has the world of `Fetching`, where the
commands come from the channel, the ids from a counter that it shares with all other handlers, and
the responses from nodes that run the same program.

No fetch gets lost or stuck: whoever waits is still in the channel, or waits for a session that has
a request with no outcome yet, or has been answered, once. For a node of the program answers a
request for a chunk by a response that the handler looks at.

* `handle_recorded`: the requests that an event adds are among those it sends;
* `Fetches`: a cluster and the fetches of one node; `fetches_quiet`, `fetches_chunk`,
  `fetches_step`;
* `forgotten_tick`: a request is forgotten with its outcome; `waiting_tick`;
* `Fetches.call`, `Fetches.tick`; `fetches_cluster`, `fetches_run`;
* `program_fetches`.
-/

namespace Edfs

open Execution

variable {PeerId : Type}

namespace ChunkFetcher

variable [DecidableEq PeerId] [PeerBytes PeerId] [Sha256] {c : Surroundings PeerId}
  {f : ChunkFetcher PeerId} {hash h : ChunkHash} {id : ℕ}

/-- A request is recorded under its id. -/
def Recorded (f : ChunkFetcher PeerId) (sent : List (PullChunk PeerId)) (id : ℕ)
    (h : ChunkHash) : Prop := f.requests id = some h ∨ ∃ peer, ⟨id, peer, h⟩ ∈ sent

theorem walkDown_recorded {now : ℕ} (hr : (f.walkDown c now hash).1.requests id = some h) :
    f.Recorded (f.walkDown c now hash).2.sent id h := by
  unfold walkDown at hr ⊢
  cases hs : f.sessions hash with
  | none =>
    rw [hs] at hr
    exact Or.inl hr
  | some s =>
    rw [hs] at hr
    dsimp only at hr ⊢
    split_ifs at hr ⊢
    · exact Or.inl hr
    · exact Or.inl hr
    · obtain ⟨s', -, -, -, -, -, hrequests⟩ := sendPulls_spec
        ((nextTargets hash c.connected s.tried maxFetchTargets).zip c.ids) hs
      rw [hrequests] at hr
      split_ifs at hr with hid
      · cases hr
        obtain ⟨⟨peer, id⟩, hmem, rfl⟩ := List.mem_map.1 hid
        exact Or.inr ⟨peer, List.mem_map_of_mem hmem⟩
      · exact Or.inl hr

theorem onAttemptFailed_recorded {failed : ℕ}
    (hr : (f.onAttemptFailed c hash failed).1.requests id = some h) :
    f.Recorded (f.onAttemptFailed c hash failed).2.sent id h := by
  unfold onAttemptFailed at hr ⊢
  cases hs : f.sessions hash with
  | none =>
    rw [hs] at hr
    exact Or.inl hr
  | some s =>
    rw [hs] at hr
    dsimp only at hr ⊢
    split_ifs at hr ⊢
    · exact Or.inl hr
    · exact walkDown_recorded (f := f.setSession hash _) hr

theorem fetchChunk_recorded {reply : Option ℕ} {pin : Bool}
    (hr : (f.fetchChunk c hash reply pin).1.requests id = some h) :
    f.Recorded (f.fetchChunk c hash reply pin).2.sent id h := by
  unfold fetchChunk at hr ⊢
  cases hs : f.sessions hash with
  | some s =>
    rw [hs] at hr
    exact Or.inl hr
  | none =>
    rw [hs] at hr
    dsimp only at hr ⊢
    split_ifs at hr ⊢
    · exact Or.inl hr
    · exact walkDown_recorded (f := f.setSession hash _) hr

theorem handleFailure_recorded {failed : ℕ}
    (hr : (f.handleFailure c failed).1.requests id = some h) :
    f.Recorded (f.handleFailure c failed).2.sent id h := by
  unfold handleFailure at hr ⊢
  cases hfailed : f.requests failed with
  | none =>
    rw [hfailed] at hr
    exact Or.inl hr
  | some a =>
    rw [hfailed] at hr
    exact (onAttemptFailed_recorded hr).imp_left fun hr => (removeRequest_requests hr).2

variable [CrdtTree PeerId]

theorem handleResponse_recorded {answered : ℕ} {data : Bytes} {fs : FileSystem PeerId}
    (hr : (f.handleResponse c answered data fs).1.requests id = some h) :
    f.Recorded (f.handleResponse c answered data fs).2.2.sent id h := by
  unfold handleResponse at hr ⊢
  cases hanswered : f.requests answered with
  | none =>
    rw [hanswered] at hr
    exact Or.inl hr
  | some a =>
    rw [hanswered] at hr
    dsimp only at hr ⊢
    split_ifs at hr ⊢
    · exact (onAttemptFailed_recorded hr).imp_left fun hr => (removeRequest_requests hr).2
    · cases hs : (f.removeRequest answered).sessions a with
      | none =>
        rw [hs] at hr
        exact Or.inl (removeRequest_requests hr).2
      | some s =>
        rw [hs] at hr
        exact Or.inl (removeRequest_requests (finish_requests hr)).2

/-- **What is recorded after an event** was so before, or the event has sent it. -/
theorem handle_recorded {e : ChunkEvent PeerId} {fs : FileSystem PeerId}
    (hr : (ChunkHandler.handle c e f fs).1.requests id = some h) :
    f.Recorded (ChunkHandler.handle c e f fs).2.2.sent id h := by
  rcases e with ⟨hash, reply, pin⟩ | hash | ⟨requestId, data | _ | _ | _⟩ | requestId
  · exact fetchChunk_recorded hr
  · exact Or.inl hr
  · exact handleResponse_recorded hr
  · exact Or.inl hr
  · exact Or.inl hr
  · exact handleFailure_recorded hr
  · exact handleFailure_recorded hr

end ChunkFetcher

namespace Network

/-- Who waits for a command, and for which chunk. -/
def SwarmCommand.waiter : SwarmCommand PeerId → Option (ℕ × ChunkHash)
  | .fetchChunk hash (some x) _ => some (x, hash)
  | _ => none

/-- Who waits for an event. -/
def Event.waiting : Event PeerId → List (ℕ × ChunkHash)
  | .command c => c.waiter.toList
  | _ => []

/-- The request that an event is the outcome of. -/
def Event.outcome : Event PeerId → List ℕ
  | .response requestId _ => [requestId]
  | .swarm (.outboundFailure requestId) => [requestId]
  | _ => []

namespace Cluster

variable [CrdtTree PeerId]

/-- What the waiters of a node have been answered. -/
def answersOf [DecidableEq PeerId] (w : Cluster PeerId) (p : PeerId) : List (ℕ × Option Bytes) :=
  w.answers.filterMap fun x => if x.1 = p then some x.2 else none

/-- The waiters in a node's channel. -/
def inChannel (w : Cluster PeerId) (p : PeerId) : List (ℕ × ChunkHash) :=
  (w.nodes p).commands.filterMap SwarmCommand.waiter

/-- What a node finds: what its waiters have been answered stays, and those in the channel; a
request is awaited until its outcome. -/
theorem arrive_fetches [DecidableEq PeerId] {p : PeerId} {w w₁ : Cluster PeerId}
    {input : Input PeerId} {e : Event PeerId} (h : w.arrive p input = some (e, w₁)) :
    w₁.answers = w.answers ∧ w.inChannel p = e.waiting ++ w₁.inChannel p ∧
      ∀ m ∈ w.awaited, m.asker = p ∧ m.requestId ∈ e.outcome ∨ m ∈ w₁.awaited := by
  cases input with
  | timeout =>
    cases h
    exact ⟨rfl, rfl, fun m hm => Or.inr hm⟩
  | command =>
    simp only [arrive] at h
    split at h
    · cases h
    · rename_i c commands hcommands
      cases h
      refine ⟨rfl, ?_, fun m hm => Or.inr hm⟩
      rw [inChannel, hcommands]
      cases hc : c.waiter <;> simp [inChannel, Event.waiting, setNode, hc]
  | request m =>
    simp only [arrive] at h
    split_ifs at h
    cases h
    exact ⟨rfl, rfl, fun m hm => Or.inr hm⟩
  | response m =>
    simp only [arrive] at h
    split_ifs at h with hfound
    cases h
    refine ⟨rfl, rfl, fun r hr => ?_⟩
    by_cases hkey : r.asker = m.asker ∧ r.requestId = m.requestId
    · exact Or.inl ⟨hkey.1.trans hfound.2.1, List.mem_singleton.2 hkey.2⟩
    · exact Or.inr (List.mem_filter.2 ⟨hr, decide_eq_true hkey⟩)
  | outboundFailure m =>
    simp only [arrive] at h
    split_ifs at h with hfound
    cases h
    refine ⟨rfl, rfl, fun r hr => ?_⟩
    by_cases hrm : r = m
    · subst hrm
      exact Or.inl ⟨hfound.2, List.mem_singleton.2 rfl⟩
    · exact Or.inr ((List.mem_erase_of_ne hrm).2 hr)
  | gossip source data =>
    simp only [arrive] at h
    split_ifs at h
    cases h
    exact ⟨rfl, rfl, fun m hm => Or.inr hm⟩
  | swarm e =>
    cases e with
    | discovered | connectionEstablished | other =>
      cases h
      exact ⟨rfl, rfl, fun m hm => Or.inr hm⟩
    | _ => cases h

/-- The fetches of a node. Of those who wait for it, some are on their way with an event, and some
in the channel. A recorded request has had no outcome yet, unless it is in `lost`. -/
structure Fetches (p : PeerId) (waiting : List (ℕ × ChunkHash)) (lost : List ℕ)
    [DecidableEq PeerId] [Sha256] (w : Cluster PeerId) (v : FetchWorld PeerId) : Prop where
  fetcher : v.fetcher = (w.nodes p).fetcher
  filesystem : v.filesystem = (w.nodes p).filesystem
  answers : v.answers.Perm (w.answersOf p)
  used : ∀ id ∈ v.used, id < (w.nodes p).nextRequestId
  handedIn : (w.waiters p).Perm (v.handedIn ++ (waiting ++ w.inChannel p))
  nodup : ((w.waiters p).map Prod.fst).Nodup
  inv : v.Inv
  awaited : ∀ id h, v.fetcher.requests id = some h →
    id ∈ lost ∨ ∃ q, ⟨id, p, q, .pullChunk h⟩ ∈ w.awaited

/-! ### An event on its way -/

variable [LinearOrder PeerId] [PeerBytes PeerId] [UuidV5] [Sha256] [FastCdc] {p : PeerId}
  {lost : List ℕ} {w w' : Cluster PeerId} {v : FetchWorld PeerId} {d d' : Dispatch PeerId}

/-- Calls of the file system are uses of it by others. -/
theorem run_uses {es : List (Edfs.Event PeerId)} {fs : FileSystem PeerId}
    (hrun : run FileSystem.callStep es v.filesystem = some fs) :
    run FetchWorld.fetchStep (es.map .call) v = some { v with filesystem := fs } := by
  induction es generalizing v with
  | nil =>
    cases hrun
    rfl
  | cons e es ih =>
    obtain ⟨fs₁, hfs₁, hrest⟩ := Option.bind_eq_some_iff.1 hrun
    have hstep : FetchWorld.fetchStep (.call e) v = some { v with filesystem := fs₁ } := by
      simp only [FetchWorld.fetchStep, hfs₁, Option.map_some]
    have hlast := @ih { v with filesystem := fs₁ } hrest
    rw [List.map_cons, run_cons, hstep, Option.bind_some, hlast]

/-- **What does not concern fetches**: calls, and actions that answer nobody. -/
theorem fetches_quiet (h : Fetches p d.event.waiting lost (w.dispatched p d) v)
    {P : Call PeerId → Prop} {sent : List (Action PeerId)}
    (hcalls : FileSystem.Calls P d.node.filesystem d'.node.filesystem)
    (hfetcher : d'.node.fetcher = d.node.fetcher)
    (hnext : d.node.nextRequestId ≤ d'.node.nextRequestId)
    (hcommands : d'.node.commands.filterMap SwarmCommand.waiter =
      d.node.commands.filterMap SwarmCommand.waiter)
    (hactions : d'.actions = d.actions ++ sent)
    (hsilent : sent.filterMap (Action.answered p) = [])
    (hwaiting : d'.event.waiting = d.event.waiting) :
    Reaches FetchWorld.fetchStep v (Fetches p d'.event.waiting lost (w.dispatched p d')) := by
  obtain ⟨es, -, hrun⟩ := hcalls
  have hfilesystem := h.filesystem
  rw [nodes_dispatched_self] at hfilesystem
  rw [← hfilesystem] at hrun
  have hanswers : (w.dispatched p d').answersOf p = (w.dispatched p d).answersOf p := by
    rw [answersOf, answers_dispatched hactions, hsilent, List.append_nil, answersOf]
  have hchannel : (w.dispatched p d').inChannel p = (w.dispatched p d).inChannel p := by
    simp [inChannel, hcommands]
  refine ⟨_, _, run_uses hrun, ?_, by simp, ?_, fun id hid => ?_, ?_, h.nodup, { h.inv with },
    fun id a hr => ?_⟩
  · have hold := h.fetcher
    rw [nodes_dispatched_self] at hold ⊢
    rw [hfetcher]
    exact hold
  · rw [hanswers]
    exact h.answers
  · have hid := h.used id hid
    rw [nodes_dispatched_self] at hid ⊢
    exact hid.trans_le hnext
  · rw [hwaiting, hchannel]
    exact h.handedIn
  · refine (h.awaited id a hr).imp_right (Exists.imp fun q hq => ?_)
    rw [awaited_dispatched hactions]
    exact List.mem_append_left _ hq

/-- **The chunk handler's part.** -/
theorem fetches_chunk {e : ChunkEvent PeerId}
    (h : Fetches p (e.handedIn ++ d.event.waiting) lost (w.dispatched p d) v)
    (c : EventContext PeerId) : Reaches FetchWorld.fetchStep v
      (Fetches p d.event.waiting lost (w.dispatched p (d.chunk c e))) := by
  set s : Surroundings PeerId :=
    ⟨c.connected, List.range' d.node.nextRequestId maxFetchTargets, c.clock⟩ with hs
  have hfetcher := h.fetcher
  have hfilesystem := h.filesystem
  have hused := h.used
  rw [nodes_dispatched_self] at hfetcher hfilesystem hused
  have hids : v.FreshIds s.ids := by
    refine ⟨List.nodup_range', fun id hid hold => ?_, by simp [hs]⟩
    exact absurd (hused id hold) (List.mem_range'_1.1 hid).1.not_gt
  have hnew : v.NewWaiter e := by
    have hnodup := (h.handedIn.map Prod.fst).nodup_iff.1 h.nodup
    rw [List.map_append, List.nodup_append] at hnodup
    intro x hx hold
    refine hnodup.2.2 _ hold x.1 (List.mem_map_of_mem (List.mem_append_left _ ?_)) rfl
    exact List.mem_append_left _ hx
  have hout : d.chunkOutput c e = (ChunkHandler.handle s e v.fetcher v.filesystem).2.2 := by
    rw [hfetcher, hfilesystem]
    rfl
  have hstep : FetchWorld.fetchStep (.handle s e) v = some
      (({ v.record e with
        filesystem := (ChunkHandler.handle s e v.fetcher v.filesystem).2.1 }).note
          ((ChunkHandler.handle s e v.fetcher v.filesystem).1, d.chunkOutput c e)) := by
    rw [hout]
    exact if_pos ⟨hids, hnew⟩
  have hactions := Dispatch.actions_chunk c e d
  refine .after hstep ⟨?_, ?_, ?_, fun id hid => ?_, ?_, h.nodup,
    (FetchWorld.fetchStep_spec h.inv hstep).1, fun id a hr => ?_⟩
  · rw [nodes_dispatched_self, hfetcher, hfilesystem]
    rfl
  · rw [nodes_dispatched_self, hfetcher, hfilesystem]
    rfl
  · have hanswers : (w.dispatched p (d.chunk c e)).answersOf p =
        (w.dispatched p d).answersOf p ++ (d.chunkOutput c e).answers := by
      simp [answersOf, answers_dispatched hactions, List.filterMap_map, Function.comp_def,
        Action.answered]
    rw [hanswers]
    exact (h.answers.append_left _).trans List.perm_append_comm
  · -- the new requests have the next ids
    rw [nodes_dispatched_self]
    change id < d.node.nextRequestId + (d.chunkOutput c e).sent.length
    rcases List.mem_append.1 hid with hnew | hold
    · change id ∈ (d.chunkOutput c e).sent.map PullChunk.requestId at hnew
      rw [ids_chunkOutput, List.mem_range'_1] at hnew
      exact hnew.2
    · exact (hused id hold).trans_le (Nat.le_add_right _ _)
  · have hchannel : (w.dispatched p (d.chunk c e)).inChannel p =
        (w.dispatched p d).inChannel p := by
      simp [inChannel, Dispatch.chunk, Dispatch.act, Dispatch.setNode]
    rw [hchannel]
    refine h.handedIn.trans ?_
    change (v.handedIn ++ _).Perm (e.handedIn ++ v.handedIn ++ _)
    simp only [List.append_assoc]
    exact List.perm_append_comm_assoc _ _ _
  · rw [awaited_dispatched hactions]
    rcases ChunkFetcher.handle_recorded hr with hold | ⟨q, hq⟩
    · exact (h.awaited id a hold).imp_right (Exists.imp fun q hq => List.mem_append_left _ hq)
    · rw [← hout] at hq
      refine Or.inr ⟨q, List.mem_append_right _ (Action.mem_request.2 ⟨rfl, ?_⟩)⟩
      exact List.mem_append_left _ (List.mem_map_of_mem hq)

variable [Bincode PeerId] {c : EventContext PeerId}

omit [UuidV5] [FastCdc] in
/-- The counter of ids grows. -/
theorem next_step (hstep : Dispatch.Step c d d') :
    d.node.nextRequestId ≤ d'.node.nextRequestId := by
  obtain ⟨sent, hacts⟩ := acts_step hstep
  obtain ⟨k, -, hk⟩ := hacts.ids
  omega

omit [UuidV5] [FastCdc] in
theorem next_steps (hsteps : Relation.ReflTransGen (Dispatch.Step c) d d') :
    d.node.nextRequestId ≤ d'.node.nextRequestId := by
  induction hsteps with
  | refl => exact le_rfl
  | tail _ hstep ih => exact ih.trans (next_step hstep)

/-- **A step of a handler** is answered by the fetches. -/
theorem fetches_step (h : Fetches p d.event.waiting lost (w.dispatched p d) v)
    (hstep : Dispatch.Step c d d') :
    Reaches FetchWorld.fetchStep v (Fetches p d'.event.waiting lost (w.dispatched p d')) := by
  have hcalls := calls_step hstep
  have hnext := next_step hstep
  cases hstep with
  | dial addrs =>
    exact fetches_quiet h hcalls rfl hnext rfl rfl
      (by simp [List.filterMap_map, Function.comp_def, Action.answered]) rfl
  | publish hevent hdata htaken => exact fetches_quiet h hcalls rfl hnext rfl rfl rfl rfl
  | gossip hevent hdata =>
    exact fetches_quiet h hcalls rfl hnext rfl (List.append_nil _).symm rfl rfl
  | synchronizeWith peer => exact fetches_quiet h hcalls rfl hnext rfl rfl rfl rfl
  | answerPull hevent =>
    refine fetches_quiet h hcalls rfl hnext rfl rfl rfl ?_
    simp [Dispatch.respond, Dispatch.takeReply, Dispatch.act, hevent, Event.waiting]
  | missingOperations hevent hne =>
    exact fetches_quiet h hcalls rfl hnext rfl (List.append_nil _).symm rfl rfl
  | @fetchChunk hash reply pin hevent =>
    refine fetches_chunk (d := d.takeReply) ?_ c
    have hwaiting : (ChunkEvent.fetchChunk hash reply pin : ChunkEvent PeerId).handedIn ++
        d.takeReply.event.waiting = d.event.waiting := by
      cases reply <;> simp [Dispatch.takeReply, hevent, Event.waiting, SwarmCommand.waiter,
        ChunkEvent.handedIn]
    rw [hwaiting]
    exact h
  | @servePull hash reply hevent =>
    set d₁ := d.respond reply (ChunkHandler.served hash d.node.filesystem) with hd₁
    have hresponds : Reaches FetchWorld.fetchStep v
        (Fetches p d₁.event.waiting lost (w.dispatched p d₁)) :=
      fetches_quiet h (.refl (byHandlers d.event) _) rfl le_rfl rfl rfl rfl
        (by simp [hd₁, Dispatch.respond, Dispatch.takeReply, Dispatch.act, hevent, Event.waiting])
    exact hresponds.bind fun v' hv' => fetches_chunk (e := .pullChunk hash) hv' c
  | chunkResponse hevent => exact fetches_chunk (e := .response _ _) h c
  | chunkFailure hevent => exact fetches_chunk (e := .outboundFailure _) h c
  | answerCheck hevent =>
    refine fetches_quiet h hcalls rfl hnext rfl rfl rfl ?_
    simp [Dispatch.respond, Dispatch.takeReply, Dispatch.act, hevent, Event.waiting]
  | heldChunks hevent =>
    exact fetches_quiet h hcalls rfl hnext rfl (List.append_nil _).symm rfl rfl
  | probeFailure hevent =>
    exact fetches_quiet h hcalls rfl hnext rfl (List.append_nil _).symm rfl rfl
  | rebalance hrebalance =>
    obtain ⟨-, rfl⟩ := Dispatch.rebalance_eq_some hrebalance
    refine fetches_quiet h hcalls rfl hnext ?_ (List.append_nil _).symm rfl rfl
    simp [Dispatch.setNode, List.filterMap_map, Function.comp_def, SwarmCommand.waiter]
  | probe hprobe =>
    obtain ⟨-, rfl⟩ := Dispatch.probe_eq_some hprobe
    exact fetches_quiet h hcalls rfl hnext rfl rfl
      (by simp [List.filterMap_map, Function.comp_def, Action.answered]) rfl
  | timers lastSync nextRebalance nextEviction =>
    exact fetches_quiet h hcalls rfl hnext rfl (List.append_nil _).symm rfl rfl

/-! ### Outcomes -/

omit [UuidV5] [FastCdc] [Bincode PeerId] in
/-- A new request of the chunk handler has a new id. -/
theorem forgotten_chunk {e : ChunkEvent PeerId} {id : ℕ} (hlt : id < d.node.nextRequestId)
    (hnone : d.node.fetcher.requests id = none) :
    (d.chunk c e).node.fetcher.requests id = none := by
  refine Option.eq_none_iff_forall_ne_some.2 fun h hr => ?_
  rcases ChunkFetcher.handle_recorded hr with hold | ⟨peer, hmem⟩
  · cases hnone.symm.trans hold
  · have hid := (sent_handle ⟨c.connected, List.range' d.node.nextRequestId maxFetchTargets,
      c.clock⟩ e d.node.fetcher d.node.filesystem).subset (List.mem_map_of_mem hmem)
    exact absurd hlt (List.mem_range'_1.1 hid).1.not_gt

omit [UuidV5] [FastCdc] in
/-- What is forgotten is not recorded again. -/
theorem forgotten_step {id : ℕ} (hstep : Dispatch.Step c d d') (hlt : id < d.node.nextRequestId)
    (hnone : d.node.fetcher.requests id = none) : d'.node.fetcher.requests id = none := by
  cases hstep with
  | fetchChunk hevent => exact forgotten_chunk (d := d.takeReply) hlt hnone
  | servePull hevent => exact forgotten_chunk (d := d.respond _ _) hlt hnone
  | chunkResponse hevent => exact forgotten_chunk hlt hnone
  | chunkFailure hevent => exact forgotten_chunk hlt hnone
  | rebalance h =>
    obtain ⟨-, rfl⟩ := Dispatch.rebalance_eq_some h
    exact hnone
  | probe h =>
    obtain ⟨-, rfl⟩ := Dispatch.probe_eq_some h
    exact hnone
  | _ => exact hnone

omit [UuidV5] [FastCdc] in
theorem forgotten_steps {id : ℕ} (hsteps : Relation.ReflTransGen (Dispatch.Step c) d d')
    (hlt : id < d.node.nextRequestId) (hnone : d.node.fetcher.requests id = none) :
    d'.node.fetcher.requests id = none := by
  induction hsteps with
  | refl => exact hnone
  | tail hsteps hstep ih => exact forgotten_step hstep (hlt.trans_le (next_steps hsteps)) ih

omit [UuidV5] [FastCdc] [Bincode PeerId] in
/-- The chunk handler forgets a request with its outcome, if it does not drop it. -/
theorem forgotten_outcome {e : ChunkEvent PeerId} {id : ℕ} (hlt : id < d.node.nextRequestId)
    (hnotices : d.node.fetcher.Notices e) (hid : id ∈ e.outcome) :
    (d.chunk c e).node.fetcher.requests id = none := by
  refine Option.eq_none_iff_forall_ne_some.2 fun h hr => ?_
  rcases ChunkFetcher.handle_requests (by simp) hnotices hr with ⟨hnot, -⟩ | hnew
  · exact hnot hid
  · exact absurd hlt (List.mem_range'_1.1 hnew).1.not_gt

omit [UuidV5] [FastCdc] in
/-- **A request is forgotten with its outcome**, unless it waits for a response of a kind that the
chunk handler drops. -/
theorem forgotten_tick {e : Event PeerId} {n : Node PeerId} {id : ℕ}
    (h : Dispatcher.tick app c ⟨e, n, []⟩ = some d') (hid : id ∈ e.outcome)
    (hlt : id < n.nextRequestId)
    (hkind : ∀ r, e = .response id r → r.dropped → n.fetcher.requests id = none) :
    d'.node.fetcher.requests id = none := by
  rw [tick_app] at h
  obtain ⟨d₁, h₁, h⟩ := Option.bind_eq_some_iff.1 h
  obtain ⟨d₂, h₂, h₃⟩ := Option.bind_eq_some_iff.1 h
  have hlt₁ : id < d₁.node.nextRequestId := hlt.trans_le (next_steps (steps_handled h₁))
  have hnone : d₁.node.fetcher.requests id = none := by
    rcases e with _ | e | ⟨_, _⟩ | ⟨requestId, r⟩ | _ | _
    case response =>
      obtain rfl := List.mem_singleton.1 hid
      cases r with
      | chunkData data =>
        cases h₁
        exact forgotten_outcome hlt (fun hdropped => by cases hdropped) hid
      | error err =>
        cases h₁
        exact forgotten_outcome hlt (fun hdropped => by cases hdropped) hid
      | heldChunks hashes =>
        cases h₁
        exact hkind _ rfl rfl
      | missingOperations operations =>
        simp only [handled, syncHandler] at h₁
        split_ifs at h₁ <;> cases h₁ <;> exact hkind _ rfl rfl
    case swarm =>
      cases e with
      | outboundFailure requestId =>
        cases h₁
        exact forgotten_outcome (e := .outboundFailure requestId) hlt trivial hid
      | _ => exact absurd hid List.not_mem_nil
    all_goals exact absurd hid List.not_mem_nil
  have hrest := (steps_syncHandler h₂).trans (steps_replicationHandler h₃)
  exact forgotten_steps hrest hlt₁ hnone

omit [UuidV5] [FastCdc] in
/-- Nobody waits for an event that has nobody waiting. -/
theorem waiting_steps (hsteps : Relation.ReflTransGen (Dispatch.Step c) d d')
    (hnone : d.event.waiting = []) : d'.event.waiting = [] := by
  induction hsteps with
  | refl => exact hnone
  | @tail d₁ d₂ _ hstep ih =>
    rcases event_step hstep with heq | heq
    · rwa [heq]
    · rw [heq]
      obtain ⟨_ | _ | _ | _ | _ | (_ | ⟨hash, _ | x, pin⟩), n, actions⟩ := d₁
      case command.fetchChunk.some => exact absurd ih (List.cons_ne_nil _ _)
      all_goals rfl

omit [UuidV5] [FastCdc] in
/-- After a tick, nobody waits for the event. -/
theorem waiting_tick {e : Event PeerId} {n : Node PeerId}
    (h : Dispatcher.tick app c ⟨e, n, []⟩ = some d') : d'.event.waiting = [] := by
  by_cases hnone : e.waiting = []
  · exact waiting_steps (steps_tick h) hnone
  · rw [tick_app] at h
    obtain ⟨d₁, h₁, h⟩ := Option.bind_eq_some_iff.1 h
    obtain ⟨d₂, h₂, h₃⟩ := Option.bind_eq_some_iff.1 h
    refine waiting_steps ((steps_syncHandler h₂).trans (steps_replicationHandler h₃)) ?_
    rcases e with _ | _ | _ | _ | _ | (_ | ⟨hash, reply, pin⟩)
    case command.fetchChunk =>
      cases h₁
      rfl
    all_goals exact absurd rfl hnone

/-! ### The cluster -/

omit [LinearOrder PeerId] [PeerBytes PeerId] [UuidV5] [FastCdc] [Bincode PeerId] in
/-- The fetches of a node know nothing of the rest of the program. -/
theorem Fetches.congr [DecidableEq PeerId] (h : Fetches p [] [] w v)
    (hfetcher : (w'.nodes p).fetcher = (w.nodes p).fetcher)
    (hfilesystem : (w'.nodes p).filesystem = (w.nodes p).filesystem)
    (hnext : (w'.nodes p).nextRequestId = (w.nodes p).nextRequestId)
    (hanswers : w'.answersOf p = w.answersOf p) (hwaiters : w'.waiters p = w.waiters p)
    (hchannel : w'.inChannel p = w.inChannel p)
    (hawaited : ∀ m ∈ w.awaited, m.asker = p → m ∈ w'.awaited) : Fetches p [] [] w' v where
  fetcher := by rw [hfetcher, h.fetcher]
  filesystem := by rw [hfilesystem, h.filesystem]
  answers := hanswers ▸ h.answers
  used := hnext ▸ h.used
  handedIn := by
    rw [hwaiters, hchannel]
    exact h.handedIn
  nodup := hwaiters ▸ h.nodup
  inv := h.inv
  awaited id a hr := (h.awaited id a hr).imp_right fun ⟨q, hq⟩ => ⟨q, hawaited _ hq rfl⟩

/-- Another node's tick. -/
theorem Fetches.tick_of_ne (h : Fetches p [] [] w v) {q : PeerId} (hq : p ≠ q)
    {input : Input PeerId} (hstep : clusterStep (.tick q c input) w = some w') :
    Fetches p [] [] w' v := by
  obtain ⟨-, -, e, w₁, d, harrive, -, rfl⟩ := tick_eq_some hstep
  have ha := arrives harrive
  obtain ⟨hanswers, -, hawaited⟩ := arrive_fetches harrive
  obtain ⟨commands, hnodes⟩ := ha.nodes
  have hnode : (w₁.dispatched q d).nodes p = w.nodes p := by
    rw [nodes_dispatched_of_ne hq, hnodes, Function.update_of_ne hq]
  refine h.congr (by rw [hnode]) (by rw [hnode]) (by rw [hnode]) ?_ ?_ ?_ fun m hm hasker => ?_
  · have hothers : (d.actions.filterMap (Action.answered q)).filterMap
        (fun x => if x.1 = p then some x.2 else none) = [] := by
      rw [List.filterMap_filterMap, List.filterMap_eq_nil_iff]
      intro a _
      cases a <;> simp [Action.answered, hq.symm]
    change (w₁.answers ++ d.actions.filterMap (Action.answered q)).filterMap _ = _
    rw [hanswers, List.filterMap_append, hothers, List.append_nil]
    rfl
  · exact congrFun ha.waiters p
  · rw [inChannel, inChannel, hnode]
  · rcases hawaited m hm with ⟨hown, -⟩ | hkept
    · exact absurd (hasker.symm.trans hown) hq
    · exact List.mem_append_left _ hkept

omit [PeerBytes PeerId] [UuidV5] [Sha256] [FastCdc] [Bincode PeerId] in
/-- An outcome is that of a request that has had none. -/
theorem outcome_arrive {input : Input PeerId} {e : Event PeerId} {w₁ : Cluster PeerId}
    (h : w.arrive p input = some (e, w₁)) {id : ℕ} (hid : id ∈ e.outcome) :
    ∃ m ∈ w.awaited, m.asker = p ∧ m.requestId = id := by
  cases input with
  | response m =>
    simp only [arrive] at h
    split_ifs at h with hfound
    cases h
    obtain rfl := List.mem_singleton.1 hid
    obtain ⟨-, rfl, r, hr, hasker, hrequest⟩ := hfound
    exact ⟨r, hr, hasker, hrequest⟩
  | outboundFailure m =>
    simp only [arrive] at h
    split_ifs at h with hfound
    cases h
    obtain rfl := List.mem_singleton.1 hid
    exact ⟨m, hfound.1, hfound.2, rfl⟩
  | command =>
    simp only [arrive] at h
    split at h <;> cases h
    exact absurd hid List.not_mem_nil
  | request m | gossip source data =>
    simp only [arrive] at h
    split_ifs at h
    cases h
    exact absurd hid List.not_mem_nil
  | timeout =>
    cases h
    exact absurd hid List.not_mem_nil
  | swarm e =>
    cases e with
    | discovered | connectionEstablished | other =>
      cases h
      exact absurd hid List.not_mem_nil
    | _ => cases h

omit [CrdtTree PeerId] [LinearOrder PeerId] [PeerBytes PeerId] [UuidV5] [Sha256] [FastCdc]
  [Bincode PeerId] in
/-- The response to a request for a chunk is not dropped. -/
theorem dropped_served [CrdtTree PeerId] (hash : ChunkHash) (fs : FileSystem PeerId) :
    (ChunkHandler.served hash fs).dropped = false := by
  unfold ChunkHandler.served
  split <;> rfl

/-- A node's tick. -/
theorem Fetches.tick (h : Fetches p [] [] w v) {w₀ : Cluster PeerId}
    {events : List (ClusterEvent PeerId)} (hcorrelated : Correlated w₀ events w)
    {input : Input PeerId} (hstep : clusterStep (.tick p c input) w = some w') :
    Reaches FetchWorld.fetchStep v (Fetches p [] [] w') := by
  obtain ⟨-, -, e, w₁, d, harrive, htick, rfl⟩ := tick_eq_some hstep
  have ha := arrives harrive
  obtain ⟨hanswers, hchannel, hawaited⟩ := arrive_fetches harrive
  obtain ⟨commands, hnodes⟩ := ha.nodes
  have hnode : w₁.nodes p = { w.nodes p with commands := commands } := by
    rw [hnodes, Function.update_self]
  have hstart : Fetches p e.waiting e.outcome (w₁.dispatched p ⟨e, w₁.nodes p, []⟩) v := by
    rw [dispatched_start]
    refine ⟨by rw [hnode, h.fetcher], by rw [hnode, h.filesystem], ?_, ?_, ?_, ?_, h.inv,
      fun id a hr => ?_⟩
    · rw [answersOf, hanswers]
      exact h.answers
    · rw [hnode]
      exact h.used
    · rw [congrFun ha.waiters p, ← hchannel]
      exact h.handedIn
    · rw [congrFun ha.waiters p]
      exact h.nodup
    · obtain ⟨q, hq⟩ := (h.awaited id a hr).resolve_left List.not_mem_nil
      exact (hawaited _ hq).imp And.right fun hkept => ⟨q, hkept⟩
  have hend : Reaches FetchWorld.fetchStep v
      (Fetches p d.event.waiting e.outcome (w₁.dispatched p d)) :=
    tick_invariant (I := fun d => Reaches FetchWorld.fetchStep v
        (Fetches p d.event.waiting e.outcome (w₁.dispatched p d)))
      (fun _ _ hs hd => hd.bind fun _ hv => fetches_step hv hs) htick (.stay hstart)
  refine hend.bind fun v' hv' => .stay ?_
  have hwaiting := waiting_tick htick
  refine { hv' with
    handedIn := by simpa [hwaiting] using hv'.handedIn
    awaited := fun id a hr => (hv'.awaited id a hr).imp_left fun hid => ?_ }
  -- the outcome that has arrived is not recorded any more
  obtain ⟨m, hm, hasker, hrequest⟩ := outcome_arrive harrive hid
  have hlt : id < (w₁.nodes p).nextRequestId := by
    have hfresh := hcorrelated.fresh m (hcorrelated.awaited m hm)
    rwa [hasker, hrequest, ← ha.toReplicationNode] at hfresh
  have hforgotten := forgotten_tick htick hid hlt ?_
  · rw [hv'.fetcher, nodes_dispatched_self, hforgotten] at hr
    cases hr
  · -- a response that the handler drops answers another request
    rintro r rfl hdropped
    refine Option.eq_none_iff_forall_ne_some.2 fun b hb => ?_
    rw [hnode, ← h.fetcher] at hb
    obtain ⟨q, hq⟩ := (h.awaited id b hb).resolve_left List.not_mem_nil
    obtain ⟨q', -, hresponse⟩ := ha.response id r rfl
    obtain ⟨m', hm'⟩ := hcorrelated.responses _ hresponse
    obtain rfl := hcorrelated.unique m' hm'.asked _ (hcorrelated.awaited _ hq) hm'.1.symm
    obtain ⟨-, -, before, u, -, -, -, hanswer⟩ := hm'
    rw [show r = _ from hanswer] at hdropped
    exact absurd hdropped (by simp [answer, dropped_served])

/-- The file system is used by FUSE. -/
theorem Fetches.call (h : Fetches p [] [] w v) {q : PeerId} {e : Edfs.Event PeerId}
    (hstep : clusterStep (.call q e) w = some w') :
    Reaches FetchWorld.fetchStep v (Fetches p [] [] w') := by
  obtain ⟨-, fs, hfs, rfl⟩ := call_eq_some hstep
  by_cases hq : p = q
  · subst hq
    have hcall : FetchWorld.fetchStep (.call e) v = some { v with filesystem := fs } := by
      simp only [FetchWorld.fetchStep, h.filesystem, hfs, Option.map_some]
    refine .after hcall ⟨?_, ?_, h.answers, ?_, ?_, h.nodup, { h.inv with }, h.awaited⟩
    · simpa using h.fetcher
    · simp
    · simpa using h.used
    · simpa [inChannel] using h.handedIn
  · refine .stay (h.congr ?_ ?_ ?_ rfl rfl ?_ fun m hm _ => hm) <;> simp [inChannel, hq]

/-- Someone waits for a chunk. -/
theorem Fetches.fetch (h : Fetches p [] [] w v) {q : PeerId} {hash : ChunkHash} {x : ℕ}
    (hstep : clusterStep (.fetch q hash x) w = some w') : Fetches p [] [] w' v := by
  obtain ⟨hnew, rfl⟩ := fetch_eq_some hstep
  by_cases hq : p = q
  · subst hq
    refine ⟨?_, ?_, h.answers, ?_, ?_, ?_, h.inv, h.awaited⟩
    · simpa [setNode] using h.fetcher
    · simpa [setNode] using h.filesystem
    · simpa [setNode] using h.used
    · simp only [inChannel, setNode, Function.update_self, List.filterMap_append, List.nil_append]
      rw [← List.append_assoc]
      exact (h.handedIn.cons _).trans (List.perm_append_singleton _ _).symm
    · simpa [setNode] using And.intro (fun b hb => hnew (List.mem_map_of_mem hb)) h.nodup
  · refine h.congr ?_ ?_ ?_ rfl ?_ ?_ fun m hm _ => hm <;> simp [inChannel, setNode, hq]

theorem Fetches.bridge (h : Fetches p [] [] w v) {q : PeerId} {e : BridgeEvent PeerId}
    (hstep : clusterStep (.bridge q e) w = some w') : Fetches p [] [] w' v := by
  obtain ⟨-, b, -, rfl⟩ := bridge_eq_some hstep
  by_cases hq : p = q
  · subst hq
    have hnone : ∀ batches : List (List (NodeOperation PeerId)),
        (batches.map SwarmCommand.broadcastOperations).filterMap SwarmCommand.waiter = [] := by
      intro batches
      simp [List.filterMap_map, Function.comp_def, SwarmCommand.waiter]
    refine h.congr (by simp [setNode]) (by simp [setNode]) (by simp [setNode]) rfl rfl ?_
      fun m hm _ => hm
    simp only [inChannel, setNode, Function.update_self, List.filterMap_append, hnone,
      List.append_nil]
  · refine h.congr ?_ ?_ ?_ rfl rfl ?_ fun m hm _ => hm <;> simp [inChannel, setNode, hq]

/-- **The program runs the fetches** of each node. -/
theorem fetches_cluster (h : Fetches p [] [] w v) {w₀ : Cluster PeerId}
    {events : List (ClusterEvent PeerId)} (hcorrelated : Correlated w₀ events w)
    {l : ClusterEvent PeerId} (hstep : clusterStep l w = some w') :
    Reaches FetchWorld.fetchStep v (Fetches p [] [] w') := by
  cases l with
  | call q e => exact h.call hstep
  | broadcast q operations =>
    obtain ⟨-, b, -, rfl⟩ := broadcast_eq_some hstep
    exact .stay (h.congr rfl rfl rfl rfl rfl rfl fun m hm _ => hm)
  | bridge q e => exact .stay (h.bridge hstep)
  | fetch q hash x => exact .stay (h.fetch hstep)
  | tick q c input =>
    by_cases hq : p = q
    · subst hq
      exact h.tick hcorrelated hstep
    · exact .stay (h.tick_of_ne hq hstep)

omit [PeerBytes PeerId] [UuidV5] [FastCdc] [Bincode PeerId] in
theorem fetches_init (maxPinnedBytes start : PeerId → ℕ) (p : PeerId) :
    Fetches p [] [] (init maxPinnedBytes start) (FetchWorld.init p (maxPinnedBytes p)) where
  fetcher := rfl
  filesystem := rfl
  answers := List.Perm.nil
  used _ h := absurd h List.not_mem_nil
  handedIn := List.Perm.nil
  nodup := List.nodup_nil
  inv := FetchWorld.inv_init p _
  awaited _ _ h := by cases h

variable {maxPinnedBytes start : PeerId → ℕ} {events : List (ClusterEvent PeerId)}

theorem fetches_run (hrun : run clusterStep events (init maxPinnedBytes start) = some w)
    (p : PeerId) : ∃ v, Fetches p [] [] w v := by
  refine run_rec (P := fun _ w => ∃ v, Fetches p [] [] w v) ⟨_, fetches_init _ _ p⟩ ?_ hrun
  intro events u l u' hu ⟨v, hv⟩ hstep
  obtain ⟨-, v', -, hv'⟩ := fetches_cluster hv (correlated_run hu) hstep
  exact ⟨v', hv'⟩

/-- **No fetch of the program gets lost or stuck**, in every run. On each node every session has a
request that has had no outcome yet; and whoever has ever waited for a chunk is still in the channel
of commands, or waits in the session for this chunk, or has been answered once, and by nothing but
the right bytes if by any. -/
theorem program_fetches (hrun : run clusterStep events (init maxPinnedBytes start) = some w)
    (p : PeerId) :
    (∀ hash s, (w.nodes p).fetcher.sessions hash = some s →
      ∃ id ∈ s.attempts, ∃ q, ⟨id, p, q, .pullChunk hash⟩ ∈ w.awaited) ∧
    ∀ x hash, (x, hash) ∈ w.waiters p →
      ((x, hash) ∈ w.inChannel p ∧ x ∉ (w.answersOf p).map Prod.fst) ∨
      (∃ s, (w.nodes p).fetcher.sessions hash = some s ∧ s.waiters.count x = 1 ∧
        x ∉ (w.answersOf p).map Prod.fst) ∨
      ((w.answersOf p).map Prod.fst).count x = 1 ∧
        ∀ data, (x, some data) ∈ w.answersOf p → ChunkHash.of data = hash := by
  obtain ⟨v, h⟩ := fetches_run hrun p
  have hanswered := h.answers.map Prod.fst
  refine ⟨fun hash s hs => ?_, fun x hash hx => ?_⟩
  · rw [← h.fetcher] at hs
    obtain ⟨id, hid⟩ := h.inv.nonempty hash s hs not_false
    have hid := Finmap.mem_keys.1 hid
    refine ⟨id, hid, ?_⟩
    exact (h.awaited id hash ((h.inv.indexed id hash).2 ⟨s, hs, hid⟩)).resolve_left
      List.not_mem_nil
  · rcases List.mem_append.1 (h.handedIn.mem_iff.1 hx) with hin | hchannel
    · rcases h.inv.waits_or_answered hin with ⟨⟨s, hs, hcount⟩, -, hnone⟩ | ⟨hone, -⟩
      · refine Or.inr (Or.inl ⟨s, h.fetcher ▸ hs, hcount, ?_⟩)
        rw [← hanswered.mem_iff]
        exact List.count_eq_zero.1 hnone
      · refine Or.inr (Or.inr ⟨?_, fun data hdata => ?_⟩)
        · rw [← hanswered.count_eq]
          exact hone
        · exact h.inv.right _ hin data (h.answers.mem_iff.2 hdata)
    · refine Or.inl ⟨hchannel, fun hans => ?_⟩
      have hin := h.inv.answered.2 x (hanswered.mem_iff.2 hans)
      have hnodup := (h.handedIn.map Prod.fst).nodup_iff.1 h.nodup
      rw [List.map_append, List.nodup_append] at hnodup
      exact hnodup.2.2 x hin x (List.mem_map_of_mem hchannel) rfl

end Cluster

end Network

end Edfs

namespace Edfs.Network.Cluster

open Execution Reference

/-- The chunk that node 0 has. -/
def wanted : ChunkHash := ChunkHash.of [9]

/-- Node 1 wants it. -/
def fetching : List (ClusterEvent ℕ) :=
  writes 0 ++
    [.fetch 1 wanted 7, .tick 1 (context 1 [0] []) .command,
      .tick 0 (context 0 [1] [wanted]) (.request ⟨0, 1, 0, .pullChunk wanted⟩),
      .tick 1 (context 1 [0] []) (.response ⟨0, 1, 0, .chunkData [9]⟩)]

theorem program_fetches_fetching : ∃ w,
    run clusterStep fetching (init (fun _ => 100) fun _ => 0) = some w ∧
    (∀ hash s, (w.nodes 1).fetcher.sessions hash = some s →
      ∃ id ∈ s.attempts, ∃ q, ⟨id, 1, q, .pullChunk hash⟩ ∈ w.awaited) ∧
    ∀ x hash, (x, hash) ∈ w.waiters 1 →
      ((x, hash) ∈ w.inChannel 1 ∧ x ∉ (w.answersOf 1).map Prod.fst) ∨
      (∃ s, (w.nodes 1).fetcher.sessions hash = some s ∧ s.waiters.count x = 1 ∧
        x ∉ (w.answersOf 1).map Prod.fst) ∨
      ((w.answersOf 1).map Prod.fst).count x = 1 ∧
        ∀ data, (x, some data) ∈ w.answersOf 1 → ChunkHash.of data = hash := by
  obtain ⟨w, hrun⟩ := Option.isSome_iff_exists.1 (show (run clusterStep fetching
    (init (fun _ => 100) fun _ => 0)).isSome by rfl)
  exact ⟨w, hrun, program_fetches hrun 1⟩

/-- Node 1 gets the chunk. -/
example : (run clusterStep fetching (init (fun _ => 100) fun _ => 0)).map
    (fun w => w.answersOf 1) = some [(7, some [9])] := by rfl

end Edfs.Network.Cluster
