import Edfs.Network.Cluster
import Edfs.Network.Messages

/-!
# Requests and their responses

In the cluster each response that a node finds is the answer to the request it has under this id:
the asked node has given it while the request was on its way, from what its file system was then.
No request is answered twice.

* `Asked`: the requests of a run;
* `Correlated`: what every run keeps; `correlated_step`, `correlated_run`;
* `response_answers`.
-/

namespace Edfs.Network

open Execution

variable {PeerId : Type} [CrdtTree PeerId] [LinearOrder PeerId] [PeerBytes PeerId] [UuidV5]
  [Sha256] [FastCdc] [Bincode PeerId]

/-- Whose request it is, and under which id. -/
def RequestMessage.key (m : RequestMessage PeerId) : PeerId × ℕ := (m.asker, m.requestId)

def ResponseMessage.key (m : ResponseMessage PeerId) : PeerId × ℕ := (m.asker, m.requestId)

namespace Cluster

/-! ### The messages of a tick -/

/-- What a tick sends: requests under the next ids, and the answer to the request it has found. -/
structure Exchanges (p : PeerId) (w : Cluster PeerId) (e : Event PeerId) (w₁ w' : Cluster PeerId)
    (sent : List (RequestMessage PeerId)) : Prop where
  requests : w'.requests = w₁.requests ++ sent
  awaited : w'.awaited = w₁.awaited ++ sent
  asker : ∀ m ∈ sent, m.asker = p
  ids : ∃ k, sent.map RequestMessage.requestId = List.range' (w.nodes p).nextRequestId k ∧
    (w'.nodes p).nextRequestId = (w.nodes p).nextRequestId + k
  responses : w'.responses = w₁.responses ++ (repliesTo (w.nodes p).filesystem e).map fun a =>
    ⟨a.1.requestId, a.1.peer, p, a.2⟩
  others : ∀ q, q ≠ p → w'.nodes q = w.nodes q

variable {p : PeerId} {w w' : Cluster PeerId}

omit [UuidV5] [FastCdc] in
theorem exchanges {c : EventContext PeerId} {input : Input PeerId} {e : Event PeerId}
    {w₁ : Cluster PeerId} {d : Dispatch PeerId} (harrive : w.arrive p input = some (e, w₁))
    (htick : Dispatcher.tick app c ⟨e, w₁.nodes p, []⟩ = some d) :
    Exchanges p w e w₁ (w₁.dispatched p d) (d.actions.filterMap (Action.request p)) := by
  obtain ⟨commands, hnodes⟩ := (arrives harrive).nodes
  have hself : w₁.nodes p = { w.nodes p with commands := commands } := by
    rw [hnodes, Function.update_self]
  rw [hself] at htick
  obtain ⟨k, hids, hnext⟩ := ids_tick htick
  refine ⟨rfl, rfl, fun m hm => ?_,
    ⟨k, ?_, ?_⟩, ?_, fun q hq => ?_⟩
  · exact (Action.mem_request.1 hm).1
  · rw [← hids, List.map_filterMap]
    congr 1
    funext a
    cases a <;> rfl
  · rw [nodes_dispatched_self]
    exact hnext
  · rw [← replies_tick htick, List.map_filterMap]
    refine congrArg (w₁.responses ++ ·) ?_
    congr 1
    funext a
    cases a <;> rfl
  · rw [nodes_dispatched_of_ne hq, hnodes, Function.update_of_ne hq]

/-- Only ticks send and receive messages. -/
theorem messages_of_ne_tick {l : ClusterEvent PeerId} (h : clusterStep l w = some w')
    (hl : ∀ p c input, l ≠ .tick p c input) : w'.requests = w.requests ∧ w'.awaited = w.awaited ∧
      w'.responses = w.responses ∧
      ∀ q, (w'.nodes q).nextRequestId = (w.nodes q).nextRequestId := by
  cases l with
  | call p e =>
    obtain ⟨-, fs, -, rfl⟩ := call_eq_some h
    exact ⟨rfl, rfl, rfl, update_same (·.nextRequestId) rfl rfl⟩
  | broadcast p operations =>
    obtain ⟨-, b, -, rfl⟩ := broadcast_eq_some h
    exact ⟨rfl, rfl, rfl, fun _ => rfl⟩
  | bridge p e =>
    obtain ⟨-, b, -, rfl⟩ := bridge_eq_some h
    exact ⟨rfl, rfl, rfl, update_same (·.nextRequestId) rfl rfl⟩
  | fetch p hash waiter =>
    obtain ⟨-, rfl⟩ := fetch_eq_some h
    exact ⟨rfl, rfl, rfl, update_same (·.nextRequestId) rfl rfl⟩
  | tick p c input => exact absurd rfl (hl p c input)

/-! ### Histories -/

/-- The requests that have been on their way at some time of a run. -/
def Asked (events : List (ClusterEvent PeerId)) (w₀ : Cluster PeerId) :
    Set (RequestMessage PeerId) :=
  {m | ∃ before w, before <+: events ∧ run clusterStep before w₀ = some w ∧ m ∈ w.requests}

/-- In a run, the asked node has answered a request while it was on its way. -/
def Answered (events : List (ClusterEvent PeerId)) (w₀ : Cluster PeerId)
    (m : RequestMessage PeerId) (r : ResponseMessage PeerId) : Prop :=
  r.key = m.key ∧ r.answerer = m.answerer ∧
    ∃ before w, before <+: events ∧ run clusterStep before w₀ = some w ∧ m ∈ w.requests ∧
      r.response = answer (w.nodes m.answerer).filesystem m.request

/-- Ids are used once, every response answers a request, and no request is answered twice. -/
structure Correlated (w₀ : Cluster PeerId) (events : List (ClusterEvent PeerId))
    (w : Cluster PeerId) : Prop where
  fresh : ∀ m ∈ Asked events w₀, m.requestId < (w.nodes m.asker).nextRequestId
  unique : ∀ m ∈ Asked events w₀, ∀ m' ∈ Asked events w₀, m.key = m'.key → m = m'
  awaited : ∀ m ∈ w.awaited, m ∈ Asked events w₀
  responses : ∀ r ∈ w.responses, ∃ m, Answered events w₀ m r
  once : (w.requests.map RequestMessage.key ++ w.responses.map ResponseMessage.key).Nodup

section History

variable {w₀ : Cluster PeerId} {events : List (ClusterEvent PeerId)} {l : ClusterEvent PeerId}

theorem asked_concat (hrun : run clusterStep events w₀ = some w)
    (hstep : clusterStep l w = some w') (m : RequestMessage PeerId) :
    m ∈ Asked (events ++ [l]) w₀ ↔ m ∈ Asked events w₀ ∨ m ∈ w'.requests := by
  have hrun' := run_concat_eq_some.2 ⟨w, hrun, hstep⟩
  constructor
  · rintro ⟨before, u, hbefore, hu, hm⟩
    rcases List.prefix_concat_iff.1 hbefore with rfl | hbefore
    · cases hu.symm.trans hrun'
      exact Or.inr hm
    · exact Or.inl ⟨before, u, hbefore, hu, hm⟩
  · rintro (⟨before, u, hbefore, hu, hm⟩ | hm)
    · exact ⟨before, u, hbefore.trans (List.prefix_append _ _), hu, hm⟩
    · exact ⟨_, w', List.prefix_rfl, hrun', hm⟩

theorem mem_asked (hrun : run clusterStep events w₀ = some w) {m : RequestMessage PeerId}
    (hm : m ∈ w.requests) : m ∈ Asked events w₀ := ⟨events, w, List.prefix_rfl, hrun, hm⟩

theorem Answered.mono {m : RequestMessage PeerId} {r : ResponseMessage PeerId}
    (h : Answered events w₀ m r) (l : ClusterEvent PeerId) : Answered (events ++ [l]) w₀ m r := by
  obtain ⟨hkey, hanswerer, before, u, hbefore, hrest⟩ := h
  exact ⟨hkey, hanswerer, before, u, hbefore.trans (List.prefix_append _ _), hrest⟩

theorem Answered.asked {m : RequestMessage PeerId} {r : ResponseMessage PeerId}
    (h : Answered events w₀ m r) : m ∈ Asked events w₀ := by
  obtain ⟨-, -, before, u, hbefore, hu, hm, -⟩ := h
  exact ⟨before, u, hbefore, hu, hm⟩

theorem correlated_init (maxPinnedBytes start : PeerId → ℕ) :
    Correlated (init maxPinnedBytes start) [] (init maxPinnedBytes start) := by
  have hnone : ∀ m, m ∉ Asked [] (init maxPinnedBytes start) := by
    rintro m ⟨before, u, hbefore, hu, hm⟩
    cases List.prefix_nil.1 hbefore
    cases hu
    exact absurd hm List.not_mem_nil
  exact ⟨fun m hm => absurd hm (hnone m), fun m hm => absurd hm (hnone m),
    fun m hm => absurd hm List.not_mem_nil, fun r hr => absurd hr List.not_mem_nil, List.nodup_nil⟩

/-- The requests that a tick has sent are new. -/
theorem Correlated.sent_new (h : Correlated w₀ events w) {e : Event PeerId}
    {w₁ : Cluster PeerId} {sent : List (RequestMessage PeerId)}
    (hx : Exchanges p w e w₁ w' sent) {m : RequestMessage PeerId} (hm : m ∈ sent) :
    (∀ m' ∈ Asked events w₀, m'.key ≠ m.key) ∧ m.requestId < (w'.nodes m.asker).nextRequestId := by
  obtain ⟨k, hids, hnext⟩ := hx.ids
  have hid : m.requestId ∈ List.range' (w.nodes p).nextRequestId k :=
    hids ▸ List.mem_map_of_mem hm
  rw [List.mem_range'_1] at hid
  rw [hx.asker m hm, hnext]
  refine ⟨fun m' hm' hkey => ?_, hid.2⟩
  have hlt := h.fresh m' hm'
  obtain ⟨hasker, hrequest⟩ := Prod.mk.inj hkey
  rw [hasker, hrequest, hx.asker m hm] at hlt
  exact absurd hid.1 hlt.not_ge

omit [PeerBytes PeerId] [UuidV5] [Sha256] [FastCdc] [Bincode PeerId] in
/-- The requests that a tick has sent are told apart by their ids. -/
theorem Exchanges.nodup {e : Event PeerId} {w₁ : Cluster PeerId}
    {sent : List (RequestMessage PeerId)} (hx : Exchanges p w e w₁ w' sent) :
    (sent.map RequestMessage.key).Nodup := by
  obtain ⟨k, hids, -⟩ := hx.ids
  have hnodup : (sent.map RequestMessage.requestId).Nodup := hids ▸ List.nodup_range'
  refine List.Nodup.of_map Prod.snd ?_
  rwa [List.map_map]

open scoped List in
/-- The keys of the messages on their way, before a tick and after it. -/
theorem Correlated.once_tick (h : Correlated w₀ events w)
    (hrun : run clusterStep events w₀ = some w) {input : Input PeerId} {e : Event PeerId}
    {w₁ : Cluster PeerId}
    {sent : List (RequestMessage PeerId)} (ha : Arrives p w input e w₁)
    (hx : Exchanges p w e w₁ w' sent) :
    (w'.requests.map RequestMessage.key ++ w'.responses.map ResponseMessage.key).Nodup := by
  have hold : ∀ k ∈ w.requests.map RequestMessage.key ++ w.responses.map ResponseMessage.key,
      k ∉ sent.map RequestMessage.key := by
    intro k hk hsent
    obtain ⟨m, hm, rfl⟩ := List.mem_map.1 hsent
    have hnew := (h.sent_new hx hm).1
    rcases List.mem_append.1 hk with hk | hk
    · obtain ⟨m', hm', hkey⟩ := List.mem_map.1 hk
      exact hnew m' (mem_asked hrun hm') hkey
    · obtain ⟨r, hr, hkey⟩ := List.mem_map.1 hk
      obtain ⟨m', hm'⟩ := h.responses r hr
      exact hnew m' hm'.asked (hm'.1.symm.trans hkey)
  have hall : ((w.requests.map RequestMessage.key ++ w.responses.map ResponseMessage.key) ++
      sent.map RequestMessage.key).Nodup :=
    List.nodup_append.2 ⟨h.once, hx.nodup, fun k hk k' hk' heq => hold k hk (heq ▸ hk')⟩
  rw [hx.requests, hx.responses, List.map_append, List.map_append, List.map_map]
  rcases ha.taken with ⟨hrequests, hresponses, hne⟩ | ⟨m, hm, rfl, hrequests, hresponses⟩
  · -- nothing is answered
    rw [hrequests, repliesTo_eq_nil hne, List.map_nil, List.append_nil]
    refine (hall.sublist (((List.Sublist.refl _).append (hresponses.map _)).append
      (List.Sublist.refl _))).perm ?_
    rw [List.append_assoc, List.append_assoc]
    exact List.perm_append_comm.append_left _
  · -- the response takes the place of its request
    rw [hrequests, hresponses]
    set rest := (w.requests.erase m).map RequestMessage.key
    set others := w.responses.map ResponseMessage.key
    set new := sent.map RequestMessage.key
    have hkeys : w.requests.map RequestMessage.key ~ m.key :: rest :=
      (List.perm_cons_erase hm).map _
    refine hall.perm ?_
    calc (w.requests.map RequestMessage.key ++ others) ++ new
        _ ~ (m.key :: rest ++ others) ++ new := (hkeys.append_right _).append_right _
        _ ~ (rest ++ others) ++ new ++ [m.key] := (List.perm_append_singleton _ _).symm
        _ ~ (rest ++ new) ++ others ++ [m.key] := by
          refine List.Perm.append_right _ ?_
          rw [List.append_assoc, List.append_assoc]
          exact List.perm_append_comm.append_left rest
        _ = rest ++ new ++ (others ++ [m.key]) := List.append_assoc _ _ _

theorem Correlated.tick (h : Correlated w₀ events w) (hrun : run clusterStep events w₀ = some w)
    {c : EventContext PeerId} {input : Input PeerId}
    (hstep : clusterStep (.tick p c input) w = some w') :
    Correlated w₀ (events ++ [.tick p c input]) w' := by
  have hasked := asked_concat hrun hstep
  obtain ⟨-, -, e, w₁, d, harrive, htick, rfl⟩ := tick_eq_some hstep
  have ha := arrives harrive
  have hx := exchanges harrive htick
  have hsent : ∀ m, m ∈ Asked (events ++ [.tick p c input]) w₀ ↔
      m ∈ Asked events w₀ ∨ m ∈ d.actions.filterMap (Action.request p) := by
    intro m
    rw [hasked, hx.requests, List.mem_append]
    refine ⟨?_, Or.imp_right Or.inr⟩
    rintro (hm | hm | hm)
    · exact Or.inl hm
    · exact Or.inl (mem_asked hrun (ha.requests hm))
    · exact Or.inr hm
  have hnext : ∀ q, (w.nodes q).nextRequestId ≤
      ((w₁.dispatched p d).nodes q).nextRequestId := by
    intro q
    by_cases hq : q = p
    · subst hq
      obtain ⟨k, -, hk⟩ := hx.ids
      omega
    · rw [hx.others q hq]
  refine ⟨fun m hm => ?_, fun m hm m' hm' hkey => ?_, fun m hm => ?_, fun r hr => ?_,
    h.once_tick hrun ha hx⟩
  · rcases (hsent m).1 hm with hm | hm
    · exact (h.fresh m hm).trans_le (hnext _)
    · exact (h.sent_new hx hm).2
  · rcases (hsent m).1 hm with hm | hm <;> rcases (hsent m').1 hm' with hm' | hm'
    · exact h.unique m hm m' hm' hkey
    · exact absurd hkey ((h.sent_new hx hm').1 m hm)
    · exact absurd hkey.symm ((h.sent_new hx hm).1 m' hm')
    · exact List.inj_on_of_nodup_map hx.nodup hm hm' hkey
  · rw [hx.awaited] at hm
    rw [hsent]
    exact (List.mem_append.1 hm).imp_left fun hm => h.awaited m (ha.awaited hm)
  · rw [hx.responses] at hr
    rcases List.mem_append.1 hr with hr | hr
    · obtain ⟨m, hm⟩ := h.responses r (ha.responses hr)
      exact ⟨m, hm.mono _⟩
    · -- the response to the request that has arrived
      by_cases hrequest : ∃ req channel, e = .request req (some channel)
      · obtain ⟨req, channel, rfl⟩ := hrequest
        cases List.mem_singleton.1 hr
        exact ⟨⟨channel.requestId, channel.peer, p, req⟩, rfl, rfl, events, w,
          List.prefix_append _ _, hrun, ha.request req channel rfl, rfl⟩
      · rw [repliesTo_eq_nil fun req channel he => hrequest ⟨req, channel, he⟩] at hr
        exact absurd hr List.not_mem_nil

/-- Nothing but a tick sends or takes a message. -/
theorem Correlated.quiet (h : Correlated w₀ events w) (hrun : run clusterStep events w₀ = some w)
    (hstep : clusterStep l w = some w') (htick : ∀ p c input, l ≠ .tick p c input) :
    Correlated w₀ (events ++ [l]) w' := by
  obtain ⟨hrequests, hawaited, hresponses, hnext⟩ := messages_of_ne_tick hstep htick
  have hsame : ∀ m, m ∈ Asked (events ++ [l]) w₀ ↔ m ∈ Asked events w₀ := by
    intro m
    rw [asked_concat hrun hstep, hrequests]
    exact or_iff_left_of_imp (mem_asked hrun)
  refine ⟨fun m hm => ?_, fun m hm m' hm' => h.unique m ((hsame m).1 hm) m' ((hsame m').1 hm'),
    fun m hm => ?_, fun r hr => ?_, ?_⟩
  · rw [hnext]
    exact h.fresh m ((hsame m).1 hm)
  · exact (hsame m).2 (h.awaited m (hawaited ▸ hm))
  · obtain ⟨m, hm⟩ := h.responses r (hresponses ▸ hr)
    exact ⟨m, hm.mono l⟩
  · rw [hrequests, hresponses]
    exact h.once

theorem correlated_step (h : Correlated w₀ events w) (hrun : run clusterStep events w₀ = some w)
    (hstep : clusterStep l w = some w') : Correlated w₀ (events ++ [l]) w' := by
  cases l with
  | tick p c input => exact h.tick hrun hstep
  | call p e => exact h.quiet hrun hstep (by simp)
  | broadcast p operations => exact h.quiet hrun hstep (by simp)
  | bridge p e => exact h.quiet hrun hstep (by simp)
  | fetch p hash waiter => exact h.quiet hrun hstep (by simp)

theorem correlated_run {maxPinnedBytes start : PeerId → ℕ}
    (hrun : run clusterStep events (init maxPinnedBytes start) = some w) :
    Correlated (init maxPinnedBytes start) events w :=
  run_rec (P := fun events w => Correlated (init maxPinnedBytes start) events w)
    (correlated_init _ _) (fun _ _ _ _ ht ih hstep => correlated_step ih ht hstep) hrun

/-- **A response is the answer to its request.** In every run, a node handles a response only to
a request of its own that has had no outcome yet; the asked node has answered this request while it
was on its way, from what its file system was then. There is no other request under this id and no
other response to it, and afterwards the request is not awaited any more. -/
theorem response_answers {maxPinnedBytes start : PeerId → ℕ}
    (hrun : run clusterStep events (init maxPinnedBytes start) = some w)
    {c : EventContext PeerId} {r : ResponseMessage PeerId}
    (hstep : clusterStep (.tick p c (.response r)) w = some w') :
    ∃ m ∈ w.awaited, Answered events (init maxPinnedBytes start) m r ∧
      (∀ m' ∈ Asked events (init maxPinnedBytes start), m'.key = r.key → m' = m) ∧
      (∀ r' ∈ w.responses, r'.key = r.key → r' = r) ∧ ∀ m' ∈ w'.awaited, m'.key ≠ r.key := by
  have h := correlated_run hrun
  obtain ⟨-, -, e, w₁, d, harrive, htick, rfl⟩ := tick_eq_some hstep
  have hx := exchanges harrive htick
  simp only [arrive] at harrive
  split_ifs at harrive with hfound
  cases harrive
  obtain ⟨hr, -, m, hm, hasker, hid⟩ := hfound
  obtain ⟨m₀, hm₀⟩ := h.responses r hr
  have hkey : m.key = r.key := Prod.ext hasker hid
  have hunique : ∀ m' ∈ Asked events (init maxPinnedBytes start), m'.key = r.key → m' = m :=
    fun m' hm' hkey' => h.unique m' hm' m (h.awaited m hm) (hkey'.trans hkey.symm)
  refine ⟨m, hm, hunique m₀ hm₀.asked hm₀.1.symm ▸ hm₀, hunique, fun r' hr' hkey' => ?_,
    fun m' hm' hkey' => ?_⟩
  · exact List.inj_on_of_nodup_map (List.nodup_append.1 h.once).2.1 hr' hr hkey'
  · rw [hx.awaited] at hm'
    rcases List.mem_append.1 hm' with hold | hnew
    · obtain ⟨hasker', hid'⟩ := Prod.mk.inj hkey'
      exact (of_decide_eq_true (List.mem_filter.1 hold).2) ⟨hasker', hid'⟩
    · exact (h.sent_new hx hnew).1 m (h.awaited m hm) (hkey.trans hkey'.symm)

end History

end Cluster

end Edfs.Network

namespace Edfs.Network.Cluster

open Execution Reference

/-- Node 0 has a directory, and node 1 connects to it and pulls. -/
def pulls : List (ClusterEvent ℕ) :=
  [.call 0 creates, .tick 1 (context 1 [0] []) (.swarm (.connectionEstablished 0 1)),
    .tick 0 (context 0 [1] []) (.request ⟨0, 1, 0, .pullMissingOperations []⟩)]

/-- What node 0 answers. -/
def pulled : ResponseMessage ℕ := ⟨0, 1, 0, .missingOperations created⟩

theorem response_answers_pulled : ∃ w w',
    run clusterStep pulls (init (fun _ => 100) fun _ => 0) = some w ∧
    clusterStep (.tick 1 (context 1 [0] []) (.response pulled)) w = some w' ∧
    ∃ m ∈ w.awaited, Answered pulls (init (fun _ => 100) fun _ => 0) m pulled ∧
      (∀ m' ∈ Asked pulls (init (fun _ => 100) fun _ => 0), m'.key = pulled.key → m' = m) ∧
      (∀ r' ∈ w.responses, r'.key = pulled.key → r' = pulled) ∧
      ∀ m' ∈ w'.awaited, m'.key ≠ pulled.key := by
  obtain ⟨w', hrun'⟩ := Option.isSome_iff_exists.1 (show (run clusterStep
    (pulls ++ [.tick 1 (context 1 [0] []) (.response pulled)])
    (init (fun _ => 100) fun _ => 0)).isSome by rfl)
  obtain ⟨w, hrun, hstep⟩ := run_concat_eq_some.1 hrun'
  exact ⟨w, w', hrun, hstep, response_answers hrun hstep⟩

end Edfs.Network.Cluster
