import Edfs.Network.Fetching

/-!
# Whether fetches come to an end

A session lives by its attempts, so it ends when each of its requests has had an outcome, if the
handler notices all of them. `ChunkHandler::handle` looks at responses with bytes and at errors;
what else a peer may send it drops, and the session waits on.

* `handle_requests`: a request is recorded no longer than until the handler has noticed its outcome;
* `fetch_finished`: where all outcomes are noticed, no session is left after the last one;
* `fetch_stuck`: a peer that answers with the wrong kind of response holds a session up for ever.
-/

namespace Edfs

open Execution

/-- A response of a kind that the handler drops. -/
def Response.dropped {PeerId : Type} : Response PeerId → Bool
  | .heldChunks _ => true
  | .missingOperations _ => true
  | _ => false

namespace ChunkFetcher

variable {PeerId : Type} [DecidableEq PeerId] [PeerBytes PeerId] [Sha256]
  {c : Surroundings PeerId} {f : ChunkFetcher PeerId} {hash h : ChunkHash} {id : ℕ}

/-- `walk_down` records new requests only. -/
theorem walkDown_requests {now : ℕ} (hids : maxFetchTargets ≤ c.ids.length)
    (hr : (f.walkDown c now hash).1.requests id = some h) :
    f.requests id = some h ∨ id ∈ c.ids := by
  cases hs : f.sessions hash with
  | none =>
    rw [walkDown, hs] at hr
    exact Or.inl hr
  | some s =>
    by_cases htargets : nextTargets hash c.connected s.tried maxFetchTargets = []
    · obtain ⟨f', hwalk, -, hrequests⟩ := walkDown_done hs htargets now
      rw [hwalk] at hr
      exact Or.inl (hrequests ▸ hr)
    · obtain ⟨targets, -, hfirst, hwalk⟩ := walkDown_more hs htargets hids now
      obtain ⟨s', -, -, -, -, -, hrequests⟩ := sendPulls_spec targets hs
      rw [hwalk] at hr
      by_cases hid : id ∈ targets.map Prod.snd
      · exact Or.inr (hfirst.subset hid)
      · rw [hrequests, if_neg hid] at hr
        exact Or.inl hr

theorem onAttemptFailed_requests {failed : ℕ} (hids : maxFetchTargets ≤ c.ids.length)
    (hr : (f.onAttemptFailed c hash failed).1.requests id = some h) :
    f.requests id = some h ∨ id ∈ c.ids := by
  unfold onAttemptFailed at hr
  cases hs : f.sessions hash with
  | none =>
    rw [hs] at hr
    exact Or.inl hr
  | some s =>
    rw [hs] at hr
    dsimp only at hr
    split_ifs at hr
    · exact Or.inl hr
    · exact walkDown_requests (f := f.setSession hash _) hids hr

theorem fetchChunk_requests {reply : Option ℕ} {pin : Bool}
    (hids : maxFetchTargets ≤ c.ids.length)
    (hr : (f.fetchChunk c hash reply pin).1.requests id = some h) :
    f.requests id = some h ∨ id ∈ c.ids := by
  unfold fetchChunk at hr
  cases hs : f.sessions hash with
  | some s =>
    rw [hs] at hr
    exact Or.inl hr
  | none =>
    rw [hs] at hr
    dsimp only at hr
    split_ifs at hr
    · exact Or.inl hr
    · exact walkDown_requests (f := f.setSession hash _) hids hr

omit [DecidableEq PeerId] [PeerBytes PeerId] [Sha256] in
/-- A request that has been removed is not recorded, and the others are as they were. -/
theorem removeRequest_requests {removed : ℕ}
    (hr : (f.removeRequest removed).requests id = some h) :
    id ≠ removed ∧ f.requests id = some h := by
  change Function.update f.requests removed none id = some h at hr
  by_cases hid : id = removed
  · subst hid
    rw [Function.update_self] at hr
    cases hr
  · rw [Function.update_of_ne hid] at hr
    exact ⟨hid, hr⟩

theorem handleFailure_requests {failed : ℕ} (hids : maxFetchTargets ≤ c.ids.length)
    (hr : (f.handleFailure c failed).1.requests id = some h) :
    id ≠ failed ∧ f.requests id = some h ∨ id ∈ c.ids := by
  unfold handleFailure at hr
  cases hfailed : f.requests failed with
  | none =>
    rw [hfailed] at hr
    refine Or.inl ⟨?_, hr⟩
    rintro rfl
    cases hfailed.symm.trans hr
  | some a =>
    rw [hfailed] at hr
    exact (onAttemptFailed_requests hids hr).imp_left removeRequest_requests

variable [CrdtTree PeerId]

omit [DecidableEq PeerId] [PeerBytes PeerId] in
/-- The end of a session forgets requests and records none. -/
theorem finish_requests {data : Bytes} {s : FetchSession PeerId} {fs : FileSystem PeerId}
    (hr : (finish c hash data s f fs).1.requests id = some h) : f.requests id = some h := by
  obtain ⟨f', fs', hfinish, -, hrequests⟩ := finish_spec c hash data s f fs
  rw [hfinish] at hr
  have hleft := (hrequests id).symm.trans hr
  split_ifs at hleft
  exact hleft

theorem handleResponse_requests {answered : ℕ} {data : Bytes} {fs : FileSystem PeerId}
    (hids : maxFetchTargets ≤ c.ids.length)
    (hr : (f.handleResponse c answered data fs).1.requests id = some h) :
    id ≠ answered ∧ f.requests id = some h ∨ id ∈ c.ids := by
  unfold handleResponse at hr
  cases hanswered : f.requests answered with
  | none =>
    rw [hanswered] at hr
    refine Or.inl ⟨?_, hr⟩
    rintro rfl
    cases hanswered.symm.trans hr
  | some a =>
    rw [hanswered] at hr
    dsimp only at hr
    split_ifs at hr
    · exact (onAttemptFailed_requests hids hr).imp_left removeRequest_requests
    · cases hs : (f.removeRequest answered).sessions a with
      | none =>
        rw [hs] at hr
        exact Or.inl (removeRequest_requests hr)
      | some s =>
        rw [hs] at hr
        exact Or.inl (removeRequest_requests (finish_requests hr))

/-- The handler notices an outcome if it does not drop the response, or waits for none. -/
def Notices (f : ChunkFetcher PeerId) : ChunkEvent PeerId → Prop
  | .response requestId r => r.dropped → f.requests requestId = none
  | _ => True

instance (f : ChunkFetcher PeerId) : ∀ e : ChunkEvent PeerId, Decidable (f.Notices e)
  | .response _ r => inferInstanceAs (Decidable (r.dropped → _))
  | .fetchChunk _ _ _ => isTrue trivial
  | .pullChunk _ => isTrue trivial
  | .outboundFailure _ => isTrue trivial

/-- **What is recorded after an event** was so before, and the event is not its outcome, or it has
just been sent. -/
theorem handle_requests {e : ChunkEvent PeerId} {fs : FileSystem PeerId}
    (hids : maxFetchTargets ≤ c.ids.length) (hnotices : f.Notices e)
    (hr : (ChunkHandler.handle c e f fs).1.requests id = some h) :
    id ∉ e.outcome ∧ f.requests id = some h ∨ id ∈ c.ids := by
  cases e with
  | fetchChunk a reply pin =>
    exact (fetchChunk_requests hids hr).imp_left fun hr => ⟨List.not_mem_nil, hr⟩
  | pullChunk a => exact Or.inl ⟨List.not_mem_nil, hr⟩
  | outboundFailure failed =>
    exact (handleFailure_requests hids hr).imp_left fun hr => ⟨mt List.mem_singleton.1 hr.1, hr.2⟩
  | response answered r =>
    cases r with
    | chunkData data =>
      exact (handleResponse_requests hids hr).imp_left fun hr =>
        ⟨mt List.mem_singleton.1 hr.1, hr.2⟩
    | error err =>
      exact (handleFailure_requests hids hr).imp_left fun hr =>
        ⟨mt List.mem_singleton.1 hr.1, hr.2⟩
    | heldChunks hashes =>
      refine Or.inl ⟨fun hid => ?_, hr⟩
      cases (List.mem_singleton.1 hid ▸ hnotices rfl : f.requests id = none).symm.trans hr
    | missingOperations operations =>
      refine Or.inl ⟨fun hid => ?_, hr⟩
      cases (List.mem_singleton.1 hid ▸ hnotices rfl : f.requests id = none).symm.trans hr

end ChunkFetcher

namespace FetchWorld

variable {PeerId : Type} [CrdtTree PeerId] [Sha256]

/-- Each request that has been sent has one outcome, and no other request has any. -/
def OneOutcome : FetchEvent PeerId → FetchWorld PeerId → Prop
  | .handle _ e, w => ∀ id ∈ e.outcome, id ∈ w.used ∧ id ∉ w.outcomes
  | .call _, _ => True

instance : ∀ (e : FetchEvent PeerId) (w : FetchWorld PeerId), Decidable (OneOutcome e w)
  | .handle _ e, _ => inferInstanceAs (Decidable (∀ id ∈ e.outcome, _))
  | .call _, _ => isTrue trivial

/-- The handler drops no response to a request that it has recorded. -/
def Noticed : FetchEvent PeerId → FetchWorld PeerId → Prop
  | .handle _ e, w => w.fetcher.Notices e
  | .call _, _ => True

instance : ∀ (e : FetchEvent PeerId) (w : FetchWorld PeerId), Decidable (Noticed e w)
  | .handle _ e, w => inferInstanceAs (Decidable (w.fetcher.Notices e))
  | .call _, _ => isTrue trivial

/-- The outcomes so far are of requests that have been sent, and the handler waits for none of
those requests any more. -/
def Awaits (w : FetchWorld PeerId) : Prop :=
  (∀ id ∈ w.outcomes, id ∈ w.used) ∧
    ∀ id h, w.fetcher.requests id = some h → id ∉ w.outcomes

variable [LinearOrder PeerId] [PeerBytes PeerId] [UuidV5] [FastCdc]

theorem awaits_step {e : FetchEvent PeerId} {w w' : FetchWorld PeerId}
    (hC : OneOutcome e w ∧ Noticed e w) (h : w.Awaits) (hstep : fetchStep e w = some w') :
    w'.Awaits := by
  obtain ⟨hsent, hawaits⟩ := h
  cases e with
  | call e =>
    obtain ⟨fs, -, rfl⟩ := Option.map_eq_some_iff.1 hstep
    exact ⟨hsent, hawaits⟩
  | handle c e =>
    obtain ⟨hone, hnoticed⟩ := hC
    simp only [fetchStep] at hstep
    split_ifs at hstep with hguard
    obtain ⟨⟨-, hfresh, hids⟩, -⟩ := hguard
    cases hstep
    have hsent' : ∀ id ∈ e.outcome ++ w.outcomes, id ∈ w.used := fun id hid =>
      (List.mem_append.1 hid).elim (fun hid => (hone id hid).1) (hsent id)
    refine ⟨fun id hid => List.mem_append_right _ (hsent' id hid), fun id h hr hid => ?_⟩
    rcases ChunkFetcher.handle_requests hids hnoticed hr with ⟨hnot, hr⟩ | hnew
    · exact (List.mem_append.1 hid).elim hnot (hawaits id h hr)
    · exact hfresh id hnew (hsent' id hid)

/-- **No fetch gets stuck, if all outcomes are noticed.** In every run in which each request has at
most one outcome and the handler drops no response that it waits for, no session and no request is
left once all requests have had their outcomes, and all waiters have been answered. -/
theorem fetch_finished {p : PeerId} {maxPinnedBytes : ℕ} {events : List (FetchEvent PeerId)}
    {w : FetchWorld PeerId} (hrun : run fetchStep events (init p maxPinnedBytes) = some w)
    (hone : Meets fetchStep OneOutcome events (init p maxPinnedBytes))
    (hnoticed : Meets fetchStep Noticed events (init p maxPinnedBytes))
    (hdelivered : ∀ id ∈ w.used, id ∈ w.outcomes) :
    (∀ hash, w.fetcher.sessions hash = none) ∧ (∀ id, w.fetcher.requests id = none) ∧
      ∀ x hash, (x, hash) ∈ w.handedIn → w.AnsweredOnce x := by
  have hinv := inv_run hrun
  have hinit : (init p maxPinnedBytes).Awaits :=
    ⟨fun _ h => absurd h List.not_mem_nil, fun _ _ h => by cases h⟩
  have hawaits : w.Awaits := run_invariant_of_meets
    (fun _ _ _ hC h hstep => awaits_step hC h hstep) hinit (hone.and hnoticed) hrun
  -- a recorded request is an attempt of a session, so it has been sent
  have hrequests : ∀ id, w.fetcher.requests id = none := by
    intro id
    cases hr : w.fetcher.requests id with
    | none => rfl
    | some hash =>
      obtain ⟨s, hs, hid⟩ := (hinv.indexed id hash).1 hr
      exact absurd (hdelivered id (hinv.attempt_used hs hid)) (hawaits.2 id hash hr)
  have hsessions : ∀ hash, w.fetcher.sessions hash = none := by
    intro hash
    cases hs : w.fetcher.sessions hash with
    | none => rfl
    | some s =>
      obtain ⟨id, hid⟩ := hinv.nonempty hash s hs not_false
      have hr := (hinv.indexed id hash).2 ⟨s, hs, Finmap.mem_keys.1 hid⟩
      cases (hrequests id).symm.trans hr
  refine ⟨hsessions, hrequests, fun x hash hin => ?_⟩
  refine (hinv.waits_or_answered hin).resolve_left ?_
  rintro ⟨⟨s, hs, -⟩, -⟩
  cases (hsessions hash).symm.trans hs

end FetchWorld

end Edfs

namespace Edfs.FetchWorld

open Execution Reference

/-- Peers 0, 1 and 2 are asked; two fail, the third sends the bytes. -/
def lastResort : List (FetchEvent ℕ) :=
  [.handle (near 0) (.fetchChunk (ChunkHash.of [7]) (some 10) false),
    .handle (near 3) (.outboundFailure 1),
    .handle (near 3) (.response 0 (.error .chunkNotFound)),
    .handle (near 3) (.response 2 (.chunkData [7]))]

theorem fetch_finished_late : ∃ w, run fetchStep lastResort (init 5 100) = some w ∧
    (∀ hash, w.fetcher.sessions hash = none) ∧ w.AnsweredOnce 10 := by
  have hrun : run fetchStep lastResort (init 5 100) = some _ := rfl
  obtain ⟨hsessions, -, hanswered⟩ := fetch_finished hrun (by decide) (by decide) (by decide)
  exact ⟨_, hrun, hsessions, hanswered 10 (ChunkHash.of [7]) (by decide)⟩

/-- Peers 0, 1 and 2 are asked, and all answer as if the node had checked chunks. -/
def mistaken : List (FetchEvent ℕ) :=
  [.handle (near 0) (.fetchChunk (ChunkHash.of [7]) (some 10) false),
    .handle (near 3) (.response 0 (.heldChunks [])),
    .handle (near 3) (.response 1 (.heldChunks [])),
    .handle (near 3) (.response 2 (.heldChunks []))]

/-- All outcomes are delivered, and the session still waits for them. -/
theorem fetch_stuck : ∃ w, run fetchStep mistaken (init 5 100) = some w ∧
    Meets fetchStep OneOutcome mistaken (init 5 100) ∧ (∀ id ∈ w.used, id ∈ w.outcomes) ∧
    (w.fetcher.sessions (ChunkHash.of [7])).isSome ∧ 10 ∉ w.answers.map Prod.fst :=
  ⟨_, rfl, by decide, by decide, by decide, by decide⟩

end Edfs.FetchWorld
