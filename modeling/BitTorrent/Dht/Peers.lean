import BitTorrent.Dht.Tokens

/-!
# Whom a node stores as a peer

A peer gets into the store by an announcement with a token that is good for
the address it comes from, and under that address; the store stays within
its limits.
-/

namespace BitTorrent.Dht

open List

section Runs

variable [Digests] [Ed25519] {ipv6 : Bool} {es : List NodeEvent} {e : NodeEvent} {a : Arrival}
  {s s₀ t : Dht × ℕ} {infoHash : NodeId} {peer : SocketAddr}

/-- **A node as datagrams arrive**, whose stores nothing else changes. -/
def receiving : LTS (Dht × ℕ) NodeEvent :=
  answering.restrict fun s e t =>
    e = .other → t.1.peerStore = s.1.peerStore ∧ t.1.itemStore = s.1.itemStore

/-- The peers that a node stores for an info hash. -/
def peersFor (d : Dht) (infoHash : NodeId) : List SocketAddr :=
  (d.peerStore.lookup infoHash).getD []

/-- **A peer has announced itself**: a datagram came from its IP address
that announces the info hash and shows a token that was accepted for that
address then. -/
def AnnouncedBefore (ipv6 : Bool) (s₀ : Dht × ℕ) (es : List NodeEvent) (infoHash : NodeId)
    (peer : SocketAddr) : Prop :=
  ∃ es₁ a es₂ s t id port token impliedPort, es = es₁ ++ .arrives a :: es₂ ∧
    receiving.Run s₀ es₁ s ∧ receiving.step s (.arrives a) t ∧ a.source.ip = peer.ip ∧
    a.query ipv6 = some (.announcePeer id infoHash port token impliedPort) ∧
    t.1.tokens.accepts a.source.ip token = true

/-- The peer store is within its limits, and whom it has has announced itself. -/
structure Stored (ipv6 : Bool) (s₀ : Dht × ℕ) (es : List NodeEvent) (s : Dht × ℕ) : Prop where
  run : receiving.Run s₀ es s
  readOnly : s.1.readOnly = false
  family : s.1.ipv6 = ipv6
  hashes : s.1.peerStore.entries.length ≤ maxStoredInfohashes
  peers : ∀ infoHash, (s.1.peersFor infoHash).length ≤ maxStoredPeersPerHash ∧
    (s.1.peersFor infoHash).Nodup ∧
    ∀ peer ∈ s.1.peersFor infoHash, AnnouncedBefore ipv6 s₀ es infoHash peer

theorem AnnouncedBefore.append_right (h : AnnouncedBefore ipv6 s₀ es infoHash peer) :
    AnnouncedBefore ipv6 s₀ (es ++ [e]) infoHash peer := by
  obtain ⟨es₁, a, es₂, s, t, id, port, token, impliedPort, rfl, hrest⟩ := h
  exact ⟨es₁, a, es₂ ++ [e], s, t, id, port, token, impliedPort, by simp, hrest⟩

omit [Digests] [Ed25519] in
theorem length_storePeer (d : Dht) (infoHash : NodeId) (peer : SocketAddr)
    (h : d.peerStore.entries.length ≤ maxStoredInfohashes) :
    (d.storePeer infoHash peer).peerStore.entries.length ≤ maxStoredInfohashes := by
  unfold storePeer
  split
  · rename_i hroom
    dsimp only
    by_cases hmem : infoHash ∈ d.peerStore
    · obtain ⟨_, before, after, -, hentries, herase⟩ := exists_of_kerase hmem
      rw [AList.entries_insert, herase]
      simp only [hentries, length_append, length_cons] at h ⊢
      omega
    · rw [AList.entries_insert_of_notMem hmem]
      exact hroom.resolve_left hmem
  · exact h

omit [Digests] [Ed25519] in
/-- **What storing a peer changes**: nothing, or it is put last among those
of its info hash, where it was not and there is room. -/
theorem peersFor_storePeer (d : Dht) (infoHash other : NodeId) (peer : SocketAddr) :
    (d.storePeer infoHash peer).peersFor other = d.peersFor other ∨
      other = infoHash ∧ peer ∉ d.peersFor other ∧
        (d.peersFor other).length < maxStoredPeersPerHash ∧
        (d.storePeer infoHash peer).peersFor other = d.peersFor other ++ [peer] := by
  unfold storePeer
  split
  · by_cases hother : other = infoHash
    · subst hother
      dsimp only [peersFor]
      rw [AList.lookup_insert, Option.getD_some]
      split
      · rename_i hnew
        exact .inr ⟨rfl, hnew.1, hnew.2, rfl⟩
      · exact .inl rfl
    · dsimp only [peersFor]
      exact .inl (by rw [AList.lookup_insert_ne hother])
  · exact .inl rfl

/-- **What a datagram does to the peers**: nothing, or it is an announcement
with a token that is accepted, and stores one at the address it came from. -/
theorem peerStore_of_arrives (hread : s.1.readOnly = false) (h : answering.step s (.arrives a) t) :
    t.1.peerStore = s.1.peerStore ∨ ∃ id infoHash port token impliedPort port' d,
      a.query s.1.ipv6 = some (.announcePeer id infoHash port token impliedPort) ∧
      t.1.tokens.accepts a.source.ip token = true ∧ d.peerStore = s.1.peerStore ∧
      t.1 = storePeer d infoHash ⟨a.source.ip, port'⟩ := by
  cases hquery : a.query s.1.ipv6 with
  | none =>
    obtain ⟨⟨_, _, _, _, hnode⟩, -⟩ := handleInbound_of_not_query hquery
    rw [h.2.1] at hnode
    exact .inl (show t.1.peerStore = _ by rw [show t.1 = _ from hnode])
  | some query =>
    obtain ⟨asked, _, ⟨table, hasked⟩, ⟨htokens, -⟩, hafter, -⟩ := arrives_of_query hread h hquery
    have hstore : asked.peerStore = s.1.peerStore := by
      rw [hasked]
      rfl
    obtain ⟨r, hreply, -⟩ | ⟨token, -, -, ⟨-, hreply⟩ | ⟨hok, -, -, -, hsame | hpeer⟩⟩ :=
      reply_cases asked query a.source a.supply.now
    · rw [hafter, hreply]
      exact .inl hstore
    · rw [hafter, hreply]
      exact .inl hstore
    · rw [hafter, hsame]
      exact .inl hstore
    · obtain ⟨id, infoHash, port, impliedPort, port', rfl, hpeer⟩ := hpeer
      rw [← htokens] at hok
      exact .inr ⟨id, infoHash, port, token, impliedPort, port', asked, rfl, hok, hstore,
        hafter.trans hpeer⟩

theorem Stored.of_eq (hs : Stored ipv6 s₀ es s) (hstep : receiving.step s e t)
    (h : t.1.peerStore = s.1.peerStore) : Stored ipv6 s₀ (es ++ [e]) t := by
  obtain ⟨-, hfamily, hread, -⟩ := answering_cases hs.readOnly hstep.1
  refine ⟨hs.run.snoc hstep, hread, hfamily.trans hs.family, h ▸ hs.hashes, fun infoHash => ?_⟩
  rw [peersFor, h, ← peersFor]
  obtain ⟨hfew, hnodup, hbefore⟩ := hs.peers infoHash
  exact ⟨hfew, hnodup, fun peer hpeer => (hbefore peer hpeer).append_right⟩

theorem Stored.step (hs : Stored ipv6 s₀ es s) (hstep : receiving.step s e t) :
    Stored ipv6 s₀ (es ++ [e]) t := by
  cases e with
  | other => exact hs.of_eq hstep (hstep.2 rfl).1
  | arrives a =>
    obtain hsame | ⟨id, infoHash, port, token, impliedPort, port', d, hquery, hok, hstore, hpeer⟩ :=
      peerStore_of_arrives hs.readOnly hstep.1
    · exact hs.of_eq hstep hsame
    obtain ⟨-, hfamily, hread, -⟩ := answering_cases hs.readOnly hstep.1
    refine ⟨hs.run.snoc hstep, hread, hfamily.trans hs.family, ?_, fun other => ?_⟩
    · rw [hpeer]
      exact length_storePeer d infoHash _ (hstore ▸ hs.hashes)
    · have hpeers : d.peersFor other = s.1.peersFor other := by rw [peersFor, hstore, peersFor]
      obtain ⟨hfew, hnodup, hbefore⟩ := hs.peers other
      have hcases := peersFor_storePeer d infoHash other ⟨a.source.ip, port'⟩
      rw [← hpeer, hpeers] at hcases
      rcases hcases with h | ⟨rfl, hnew, hroom, h⟩ <;> rw [h]
      · exact ⟨hfew, hnodup, fun peer hpeer => (hbefore peer hpeer).append_right⟩
      · rw [length_append]
        refine ⟨hroom, hnodup.append (nodup_singleton _) (by simpa using hnew), fun peer hmem => ?_⟩
        rcases mem_append.1 hmem with hold | hnew
        · exact (hbefore peer hold).append_right
        · obtain rfl := mem_singleton.1 hnew
          exact ⟨es, a, [], s, t, id, port, token, impliedPort, rfl, hs.run, hstep, rfl,
            hs.family ▸ hquery, hok⟩

/-- **Whom a node stores as a peer has announced itself from its address**
with a token accepted for it, the store is within its limits, and what shows
any other token changes neither store. -/
theorem peers_announced_of_run {id : NodeId} {secret : Hash20} {start : ℕ}
    (hrun : receiving.Run (Dht.new id ipv6 secret start, start) es s) :
    s.1.peerStore.entries.length ≤ 1000 ∧
    (∀ infoHash, (s.1.peersFor infoHash).length ≤ 100 ∧ (s.1.peersFor infoHash).Nodup ∧
      ∀ peer ∈ s.1.peersFor infoHash,
        AnnouncedBefore ipv6 (Dht.new id ipv6 secret start, start) es infoHash peer) ∧
    ∀ a token t, receiving.step s (.arrives a) t →
      (a.query ipv6).bind Query.token = some token →
      t.1.tokens.accepts a.source.ip token = false →
      t.1.peerStore = s.1.peerStore ∧ t.1.itemStore = s.1.itemStore := by
  have hs : Stored ipv6 (Dht.new id ipv6 secret start, start) es s := by
    refine LTS.Run.history (I := Stored ipv6 (Dht.new id ipv6 secret start, start))
      (fun _ _ _ _ hs hstep => hs.step hstep) hrun ⟨.nil, rfl, rfl, Nat.zero_le _, fun _ => ?_⟩
    exact ⟨Nat.zero_le _, nodup_nil, nofun⟩
  refine ⟨hs.hashes, hs.peers, ?_⟩
  intro a token t hstep hshown hrefused
  obtain ⟨query, hquery, htoken⟩ := Option.bind_eq_some_iff.1 hshown
  obtain ⟨asked, _, ⟨table, rfl⟩, ⟨htokens, -⟩, hafter, -⟩ :=
    arrives_of_query hs.readOnly hstep.1 (hs.family ▸ hquery)
  rw [htokens] at hrefused
  obtain ⟨r, -, hnone, -⟩ | ⟨_, htoken', -, ⟨-, hreply⟩ | ⟨hok, -⟩⟩ :=
    reply_cases (s.1.asking table a.supply) query a.source a.supply.now
  · cases hnone.symm.trans htoken
  · rw [hafter, hreply]
    exact ⟨rfl, rfl⟩
  · obtain rfl := Option.some_inj.1 (htoken'.symm.trans htoken)
    cases hok.symm.trans hrefused

end Runs

theorem peers_announced_of_run_sample : ∃ es, @AnnouncedBefore .spread .lax false (idleDht, 0) es
    (.replicate 20 97) ⟨askerAddr.ip, 1⟩ := by
  have hask : (@receiving .spread .lax).step _ _ _ := ⟨step_askerQuery, nofun⟩
  have hannounce : (@receiving .spread .lax).step _ _ _ :=
    ⟨step_fromAsker (afterArrival idleDht askerQuery) sampleAnnounce (Nat.zero_le 0) 2, nofun⟩
  have hpeers := (@peers_announced_of_run .spread .lax _ _ _ _ _ _
    ((LTS.Run.nil.snoc hask).snoc hannounce)).2.1 (.replicate 20 97)
  exact ⟨_, hpeers.2.2 _ (by decide +kernel)⟩

end BitTorrent.Dht
