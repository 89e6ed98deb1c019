import BitTorrent.Dht.Node

/-!
# How long a token is good for

A node rotates its token secret when a query arrives and the last rotation is a period ago, and it
rotates *once*, however long it has been idle.
-/

namespace BitTorrent.Dht

open List Option

/-- A datagram that arrives, what the system supplies while it is handled,
and what is sent back. -/
structure Arrival where
  data : List UInt8
  source : SocketAddr
  supply : Supply
  sent : List Datagram

/-- What happens to a node. -/
inductive NodeEvent
  | arrives (a : Arrival)
  /-- Whatever else the node does: its tokens are left alone, and nothing in
  the program makes it read-only. -/
  | other

/-- The query that a node of a family takes a datagram for. -/
def Arrival.query (ipv6 : Bool) (a : Arrival) : Option Query :=
  if a.source.isIpv6 == ipv6 then
    match KrpcMessage.decode a.data with
    | .ok (.query _ query) => some query
    | _ => none
  else none

/-- The token that a query has to show. -/
def Query.token : Query → Option (List UInt8)
  | .announcePeer _ _ _ token _ => some token
  | .put _ token _ => some token
  | _ => none

/-- The queries that are answered with a token. -/
def Query.earnsToken : Query → Bool
  | .getPeers _ _ => true
  | .get _ _ _ => true
  | _ => false

/-- **A token is handed out** in the reply. -/
def Arrival.Issues (a : Arrival) (token : List UInt8) : Prop :=
  ∃ t r, a.sent = [(.response t r, a.source)] ∧ r.token = some token

/-- **The token shown is refused**: the reply is the error 203. -/
def Arrival.Refused (a : Arrival) : Prop :=
  ∃ t, a.sent = [(.error t 203 (key "bad token"), a.source)]

/-- A query is handled at a time. -/
def Queried (ipv6 : Bool) (es : List NodeEvent) (now : ℕ) : Prop :=
  ∃ a, NodeEvent.arrives a ∈ es ∧ (a.query ipv6).isSome ∧ a.supply.now = now

/-- A secret that is made up while a datagram is handled. -/
def MadeUp (es : List NodeEvent) (secret : Hash20) : Prop :=
  ∃ a, NodeEvent.arrives a ∈ es ∧ a.supply.secret = secret

variable {ipv6 : Bool} {es : List NodeEvent} {e : NodeEvent} {a : Arrival} {q now : ℕ}
  {secret : Hash20}

theorem Queried.append_right (h : Queried ipv6 es q) : Queried ipv6 (es ++ [e]) q := by
  obtain ⟨a, ha, hrest⟩ := h
  exact ⟨a, mem_append_left _ ha, hrest⟩

theorem MadeUp.append_right (h : MadeUp es secret) : MadeUp (es ++ [e]) secret := by
  obtain ⟨a, ha, hrest⟩ := h
  exact ⟨a, mem_append_left _ ha, hrest⟩

theorem Queried.append_cases (h : Queried ipv6 (es ++ [e]) q) :
    Queried ipv6 es q ∨ ∃ a, e = .arrives a ∧ (a.query ipv6).isSome ∧ a.supply.now = q := by
  obtain ⟨a, ha, hrest⟩ := h
  rcases mem_append.1 ha with ha | ha
  · exact .inl ⟨a, ha, hrest⟩
  · exact .inr ⟨a, (mem_singleton.1 ha).symm, hrest⟩

theorem queried_last (h : (a.query ipv6).isSome) :
    Queried ipv6 (es ++ [.arrives a]) a.supply.now := ⟨a, by simp, h, rfl⟩

theorem madeUp_last : MadeUp (es ++ [.arrives a]) a.supply.secret := ⟨a, by simp, rfl⟩

/-- Two states of a node that have the same tokens and answer the same
queries. -/
def SameTokens (d d' : Dht) : Prop :=
  d'.tokens = d.tokens ∧ d'.ipv6 = d.ipv6 ∧ d'.readOnly = d.readOnly

variable (d : Dht)

theorem noteReportedAddress_eq (reporter reported : IpAddr) (w : Supply) :
    ∃ nodeId table externalIp addressReports, d.noteReportedAddress reporter reported w =
      { d with nodeId, table, externalIp, addressReports } := by
  unfold noteReportedAddress
  split
  · exact ⟨_, _, _, _, rfl⟩
  · -- first whether the candidates are forgotten, then whether enough agree
    dsimp only
    split <;> split <;> exact ⟨_, _, _, _, rfl⟩

theorem sameTokens_storePeer (infoHash : NodeId) (peer : SocketAddr) :
    SameTokens d (d.storePeer infoHash peer) := by
  unfold storePeer
  split <;> exact ⟨rfl, rfl, rfl⟩

theorem answer_of_stored (stored : Except PutError Hash20) {r : Response} (h : r.token = none) :
    (stored.mapError putErrorCode).map (fun _ => r) ≠ .error (203, key "bad token") ∧
      ∀ r', (stored.mapError putErrorCode).map (fun _ => r) = .ok r' → r'.token = none := by
  cases stored with
  | ok target => exact ⟨nofun, fun r' hr' => Except.ok.inj hr' ▸ h⟩
  | error e =>
    refine ⟨fun herror => ?_, nofun⟩
    have hcode : (putErrorCode e).1 = 203 := congrArg Prod.fst (Except.error.inj herror)
    cases e <;> exact absurd hcode (by decide)

theorem rotateIfDue_cases (tokens : TokenSecrets) (secret : Hash20) (now : ℕ) :
    (tokens.rotatedAt + tokenRotation ≤ now ∧
      tokens.rotateIfDue secret now = ⟨secret, some tokens.current, now⟩) ∨
    (now < tokens.rotatedAt + tokenRotation ∧ tokens.rotateIfDue secret now = tokens) := by
  have hpos : 0 < tokenRotation := by decide
  unfold TokenSecrets.rotateIfDue
  split
  · exact .inl ⟨by omega, rfl⟩
  · exact .inr ⟨by omega, rfl⟩

/-- **How the tokens stand to those of an earlier moment**, by how often
they have been rotated since: not at all, once, or more often. The queries
that came in between tell which. -/
inductive Since (ipv6 : Bool) (first : TokenSecrets) (es : List NodeEvent) (now : ℕ) :
    TokenSecrets → Prop
  /-- No query has come late enough to rotate them. -/
  | same (h : ∀ q, Queried ipv6 es q → q < first.rotatedAt + tokenRotation) :
      Since ipv6 first es now first
  /-- The first query late enough has, and no other since. -/
  | once (secret : Hash20) (rotatedAt : ℕ) (hsecret : MadeUp es secret)
      (hqueried : Queried ipv6 es rotatedAt) (hdue : first.rotatedAt + tokenRotation ≤ rotatedAt)
      (hfirst : ∀ q, Queried ipv6 es q →
        q < first.rotatedAt + tokenRotation ∨ rotatedAt ≤ q)
      (hlast : ∀ q, Queried ipv6 es q → q < rotatedAt + tokenRotation) :
      Since ipv6 first es now ⟨secret, some first.current, rotatedAt⟩
  /-- Both secrets are new. -/
  | more (secret previous : Hash20) (rotatedAt q : ℕ) (hsecret : MadeUp es secret)
      (hprevious : MadeUp es previous) (hqueried : Queried ipv6 es q)
      (hdue : first.rotatedAt + tokenRotation ≤ q) (hagain : q + tokenRotation ≤ now) :
      Since ipv6 first es now ⟨secret, some previous, rotatedAt⟩

variable {first tokens : TokenSecrets}

theorem Since.idle {now' : ℕ} (h : Since ipv6 first es now tokens)
    (hnow : now ≤ now') (he : ∀ a, e = .arrives a → a.query ipv6 = none) :
    Since ipv6 first (es ++ [e]) now' tokens := by
  have hold : ∀ q, Queried ipv6 (es ++ [e]) q → Queried ipv6 es q := by
    intro q hq
    rcases hq.append_cases with hq | ⟨a, ha, hsome, -⟩
    · exact hq
    · rw [he a ha] at hsome
      cases hsome
  cases h with
  | same h => exact .same fun q hq => h q (hold q hq)
  | once secret rotatedAt hsecret hqueried hdue hfirst hlast =>
    exact .once secret rotatedAt hsecret.append_right hqueried.append_right hdue
      (fun q hq => hfirst q (hold q hq)) fun q hq => hlast q (hold q hq)
  | more secret previous rotatedAt q hsecret hprevious hqueried hdue hagain =>
    exact .more secret previous rotatedAt q hsecret.append_right hprevious.append_right
      hqueried.append_right hdue (hagain.trans hnow)

theorem Since.queried (h : Since ipv6 first es now tokens)
    (hpast : ∀ q, Queried ipv6 es q → q ≤ now) (hnow : now ≤ a.supply.now)
    (hquery : (a.query ipv6).isSome) :
    Since ipv6 first (es ++ [.arrives a]) a.supply.now
      (tokens.rotateIfDue a.supply.secret a.supply.now) := by
  have hcases (q : ℕ) (hq : Queried ipv6 (es ++ [.arrives a]) q) :
      Queried ipv6 es q ∨ q = a.supply.now := by
    rcases hq.append_cases with hq | ⟨b, hb, -, rfl⟩
    · exact .inl hq
    · obtain rfl := NodeEvent.arrives.inj hb
      exact .inr rfl
  rcases rotateIfDue_cases tokens a.supply.secret a.supply.now with
    ⟨hdue', hrotated⟩ | ⟨hearly, hrotated⟩ <;> rw [hrotated]
  · cases h with
    | same h =>
      refine .once _ _ madeUp_last (queried_last hquery) hdue' (fun q hq => ?_) fun q hq => ?_
      · rcases hcases q hq with hq | rfl
        · exact .inl (h q hq)
        · exact .inr le_rfl
      · have hpos : 0 < tokenRotation := by decide
        rcases hcases q hq with hq | rfl
        · have := h q hq
          omega
        · omega
    | once secret rotatedAt hsecret hqueried hdue hfirst hlast =>
      exact .more _ _ _ rotatedAt madeUp_last hsecret.append_right hqueried.append_right hdue hdue'
    | more secret previous rotatedAt q hsecret hprevious hqueried hdue hagain =>
      exact .more _ _ _ q madeUp_last hsecret.append_right hqueried.append_right hdue
        (hagain.trans hnow)
  · cases h with
    | same h =>
      refine .same fun q hq => ?_
      rcases hcases q hq with hq | rfl
      · exact h q hq
      · exact hearly
    | once secret rotatedAt hsecret hqueried hdue hfirst hlast =>
      refine .once _ _ hsecret.append_right hqueried.append_right hdue (fun q hq => ?_)
        fun q hq => ?_
      · rcases hcases q hq with hq | rfl
        · exact hfirst q hq
        · exact .inr ((hpast rotatedAt hqueried).trans hnow)
      · rcases hcases q hq with hq | rfl
        · exact hlast q hq
        · exact hearly
    | more secret previous rotatedAt q hsecret hprevious hqueried hdue hagain =>
      exact .more _ _ _ q hsecret.append_right hprevious.append_right hqueried.append_right hdue
        (hagain.trans hnow)

section Runs

variable [Digests] [Ed25519] {d} {s t : Dht × ℕ} {query : Query} {source : SocketAddr}
  {token : List UInt8}

/-- **A node as datagrams arrive**, at times that do not decrease. The state
is the node and the time of what happened last. -/
def answering : LTS (Dht × ℕ) NodeEvent where
  step s e t := match e with
    | .arrives a => s.2 ≤ a.supply.now ∧
        (s.1.handleInbound a.data a.source a.supply).2 = (t.1, a.sent) ∧ t.2 = a.supply.now
    | .other => s.2 ≤ t.2 ∧ t.1.tokens = s.1.tokens ∧ t.1.ipv6 = s.1.ipv6 ∧
        t.1.readOnly = s.1.readOnly

omit [Ed25519] in
theorem token_answerGet (d : Dht) (target : NodeId) (seq : Option Int64) (source : SocketAddr)
    (now : ℕ) : (d.answerGet target seq source now).token = some (d.tokens.issue source.ip) := by
  unfold answerGet
  dsimp only
  split
  · rfl
  · split
    · rfl
    · split <;> rfl

/-- **What a query is answered with.** One that shows no token changes
nothing, and its answer has a token where it earns one. One that shows a
token is refused, and changes nothing, or leaves the tokens as they are; the
peers change only where it announces one, at the address it came from. -/
theorem reply_cases (d : Dht) (query : Query) (source : SocketAddr) (now : ℕ) :
    (∃ r, d.reply query source now = (.ok r, d) ∧ query.token = none ∧
      r.token = if query.earnsToken then some (d.tokens.issue source.ip) else none) ∨
    ∃ token, query.token = some token ∧ query.earnsToken = false ∧
      ((d.tokens.accepts source.ip token = false ∧
        d.reply query source now = (.error (203, key "bad token"), d)) ∨
      (d.tokens.accepts source.ip token = true ∧ SameTokens d (d.reply query source now).2 ∧
        (d.reply query source now).1 ≠ .error (203, key "bad token") ∧
        (∀ r, (d.reply query source now).1 = .ok r → r.token = none) ∧
        ((d.reply query source now).2.peerStore = d.peerStore ∨
          ∃ id infoHash port impliedPort port',
            query = .announcePeer id infoHash port token impliedPort ∧
            (d.reply query source now).2 = d.storePeer infoHash ⟨source.ip, port'⟩))) := by
  cases query with
  | ping | findNode => exact .inl ⟨_, rfl, rfl, rfl⟩
  | getPeers id infoHash =>
    rw [reply]
    split <;> exact .inl ⟨_, rfl, rfl, rfl⟩
  | get id target seq => exact .inl ⟨_, rfl, rfl, token_answerGet ..⟩
  | announcePeer id infoHash port token impliedPort =>
    refine .inr ⟨token, rfl, rfl, ?_⟩
    rw [reply]
    split
    · rename_i haccepted
      refine .inr ⟨haccepted, sameTokens_storePeer .., nofun, fun r hr => ?_,
        .inr ⟨_, _, _, _, _, rfl, rfl⟩⟩
      cases hr
      rfl
    · rename_i hrefused
      exact .inl ⟨Bool.eq_false_iff.2 hrefused, rfl⟩
  | put id token item =>
    refine .inr ⟨token, rfl, rfl, ?_⟩
    rw [reply]
    split
    · rename_i haccepted
      obtain ⟨hcode, htoken⟩ := answer_of_stored _ (r := { id := d.nodeId }) rfl
      exact .inr ⟨haccepted, ⟨rfl, rfl, rfl⟩, hcode, htoken, .inl rfl⟩
    · rename_i hrefused
      exact .inl ⟨Bool.eq_false_iff.2 hrefused, rfl⟩

theorem sameTokens_reply (d : Dht) (query : Query) (source : SocketAddr) (now : ℕ) :
    SameTokens d (d.reply query source now).2 := by
  obtain ⟨r, hreply, -⟩ | ⟨token, -, -, ⟨-, hreply⟩ | ⟨-, hsame, -⟩⟩ :=
    reply_cases d query source now
  · rw [hreply]
    exact ⟨rfl, rfl, rfl⟩
  · rw [hreply]
    exact ⟨rfl, rfl, rfl⟩
  · exact hsame

/-- The node that a query is answered by: its tokens are rotated if they are
due, and its table has the asker or has not. -/
def asking (d : Dht) (table : RoutingTable) (w : Supply) : Dht :=
  { d with tokens := d.tokens.rotateIfDue w.secret w.now, table }

theorem handleQuery_spec (hread : d.readOnly = false) (data : List UInt8) (txid : Txid)
    (query : Query) (source : SocketAddr) (w : Supply) :
    ∃ table, (d.handleQuery data txid query source w).1 =
        ((d.asking table w).reply query source w.now).2 ∧
      ((∃ r, ((d.asking table w).reply query source w.now).1 = .ok r ∧
          (d.handleQuery data txid query source w).2 =
            [(.response txid { r with ip := some source }, source)]) ∨
        ∃ err, ((d.asking table w).reply query source w.now).1 = .error err ∧
          (d.handleQuery data txid query source w).2 = [(.error txid err.1 err.2, source)]) := by
  have hasked : ∃ table, (if isReadOnly data = true then
      { d with tokens := d.tokens.rotateIfDue w.secret w.now }
    else { d with
      tokens := d.tokens.rotateIfDue w.secret w.now
      table := d.table.insert ⟨query.senderId, source⟩ w.now }) = d.asking table w := by
    split <;> exact ⟨_, rfl⟩
  obtain ⟨table, hasked⟩ := hasked
  refine ⟨table, ?_⟩
  unfold handleQuery
  rw [if_neg (Bool.eq_false_iff.1 hread)]
  dsimp only
  rw [hasked]
  generalize (d.asking table w).reply query source w.now = answer
  obtain ⟨answer | answer, after⟩ := answer
  · exact ⟨rfl, .inr ⟨_, rfl, rfl⟩⟩
  · exact ⟨rfl, .inl ⟨_, rfl, rfl⟩⟩

theorem handleInbound_of_not_query (h : a.query d.ipv6 = none) :
    (∃ nodeId table externalIp addressReports, (d.handleInbound a.data a.source a.supply).2.1 =
      { d with nodeId, table, externalIp, addressReports }) ∧
      (d.handleInbound a.data a.source a.supply).2.2 = [] := by
  unfold handleInbound
  split
  · exact ⟨⟨_, _, _, _, rfl⟩, rfl⟩
  · rename_i hfamily
    rw [isOurFamily, Bool.not_eq_false] at hfamily
    rw [Arrival.query, if_pos hfamily] at h
    split
    · exact ⟨⟨_, _, _, _, rfl⟩, rfl⟩
    · rename_i hdecode
      rw [hdecode] at h
      cases h
    · rename_i response _
      refine ⟨?_, rfl⟩
      dsimp only
      cases response.ip with
      | none => exact ⟨_, _, _, _, rfl⟩
      | some reported => exact noteReportedAddress_eq ..
    · exact ⟨⟨_, _, _, _, rfl⟩, rfl⟩

theorem handleInbound_of_query (h : a.query d.ipv6 = some query) :
    ∃ txid, d.handleInbound a.data a.source a.supply =
      (none, d.handleQuery a.data txid query a.source a.supply) := by
  unfold Arrival.query at h
  split at h
  · rename_i hfamily
    cases hdecode : KrpcMessage.decode a.data with
    | error err =>
      rw [hdecode] at h
      cases h
    | ok message =>
      rw [hdecode] at h
      cases message with
      | query txid q =>
        cases h
        refine ⟨txid, ?_⟩
        rw [handleInbound, isOurFamily, hfamily, if_neg Bool.false_ne_true.symm, hdecode]
      | response | error => cases h
  · cases h

section

variable (hread : s.1.readOnly = false)

include hread

/-- **A query that arrives is answered** by the node with its tokens rotated
if they are due. -/
theorem arrives_of_query (h : answering.step s (.arrives a) t)
    (hquery : a.query s.1.ipv6 = some query) :
    ∃ asked txid, (∃ table, asked = s.1.asking table a.supply) ∧ SameTokens asked t.1 ∧
      t.1 = (asked.reply query a.source a.supply.now).2 ∧
      ((∃ r, (asked.reply query a.source a.supply.now).1 = .ok r ∧
          a.sent = [(.response txid { r with ip := some a.source }, a.source)]) ∨
        ∃ err, (asked.reply query a.source a.supply.now).1 = .error err ∧
          a.sent = [(.error txid err.1 err.2, a.source)]) := by
  obtain ⟨txid, hinbound⟩ := handleInbound_of_query hquery
  obtain ⟨table, hafter, hanswer⟩ := handleQuery_spec hread a.data txid query a.source a.supply
  rw [show s.1.handleQuery a.data txid query a.source a.supply = (t.1, a.sent) by
    rw [← h.2.1, hinbound]] at hafter hanswer
  exact ⟨_, txid, ⟨table, rfl⟩, hafter ▸ sameTokens_reply .., hafter, hanswer⟩

theorem answering_cases (h : answering.step s e t) :
    s.2 ≤ t.2 ∧ t.1.ipv6 = s.1.ipv6 ∧ t.1.readOnly = false ∧
    ((t.1.tokens = s.1.tokens ∧ ∀ a, e = .arrives a → a.query s.1.ipv6 = none ∧ a.sent = []) ∨
      ∃ a, e = .arrives a ∧ (a.query s.1.ipv6).isSome ∧ t.2 = a.supply.now ∧
        t.1.tokens = s.1.tokens.rotateIfDue a.supply.secret a.supply.now) := by
  cases e with
  | other =>
    obtain ⟨htime, htokens, hfamily, hreadOnly⟩ := h
    exact ⟨htime, hfamily, hreadOnly.trans hread, .inl ⟨htokens, nofun⟩⟩
  | arrives a =>
    refine ⟨h.1.trans h.2.2.ge, ?_⟩
    cases hquery : a.query s.1.ipv6 with
    | none =>
      obtain ⟨⟨_, _, _, _, hnode⟩, hsent⟩ := handleInbound_of_not_query hquery
      rw [h.2.1] at hnode hsent
      dsimp only at hnode
      rw [hnode]
      refine ⟨rfl, hread, .inl ⟨rfl, fun b hb => ?_⟩⟩
      obtain rfl := NodeEvent.arrives.inj hb
      exact ⟨hquery, hsent⟩
    | some query =>
      obtain ⟨_, txid, ⟨table, rfl⟩, ⟨htokens, hfamily, hreadOnly⟩, -⟩ :=
        arrives_of_query hread h hquery
      exact ⟨hfamily, hreadOnly.trans hread, .inr ⟨a, rfl, by rw [hquery]; rfl, h.2.2, htokens⟩⟩

section

variable (h : answering.step s (.arrives a) t)

include h

theorem token_of_issues (hissues : a.Issues token) :
    token = tokenFor t.1.tokens.current a.source.ip := by
  obtain ⟨txid', r', hsent, htoken⟩ := hissues
  cases hquery : a.query s.1.ipv6 with
  | none =>
    have hnone := (handleInbound_of_not_query hquery).2
    rw [h.2.1, hsent] at hnone
    cases hnone
  | some query =>
    obtain ⟨asked, txid, -, ⟨htokens, -⟩, -, ⟨r, hreply, hresponse⟩ | ⟨err, -, herror⟩⟩ :=
      arrives_of_query hread h hquery
    · rw [hsent] at hresponse
      obtain ⟨-, rfl⟩ := KrpcMessage.response.inj (congrArg Prod.fst (List.cons.inj hresponse).1)
      rw [htokens]
      obtain ⟨r', hr', -, hr⟩ | ⟨_, -, -, ⟨-, hr⟩ | ⟨-, -, -, hr, -⟩⟩ :=
        reply_cases asked query a.source a.supply.now
      · rw [hr'] at hreply
        cases hreply
        split at hr
        · exact (some_inj.1 (hr.symm.trans htoken)).symm
        · cases hr.symm.trans htoken
      · rw [hr] at hreply
        cases hreply
      · cases (hr r hreply).symm.trans htoken
    · rw [hsent] at herror
      cases congrArg Prod.fst (List.cons.inj herror).1

theorem issues_of_query (hquery : (a.query s.1.ipv6).any Query.earnsToken = true) :
    a.Issues (tokenFor t.1.tokens.current a.source.ip) := by
  obtain ⟨query, hquery, hearns⟩ := (Option.any_eq_true ..).1 hquery
  obtain ⟨asked, txid, -, ⟨htokens, -⟩, -, hanswer⟩ := arrives_of_query hread h hquery
  rw [htokens]
  obtain ⟨r, hreply, -, htoken⟩ | ⟨_, -, hnot, -⟩ := reply_cases asked query a.source a.supply.now
  · rw [hreply] at hanswer
    rw [if_pos hearns] at htoken
    obtain ⟨r', hr', hsent⟩ | ⟨err, herr, -⟩ := hanswer
    · cases hr'
      exact ⟨txid, _, hsent, htoken⟩
    · cases herr
  · cases hearns.symm.trans hnot

theorem refused_iff (hshown : (a.query s.1.ipv6).bind Query.token = some token) :
    a.Refused ↔ t.1.tokens.accepts a.source.ip token = false := by
  obtain ⟨query, hquery, htoken⟩ := bind_eq_some_iff.1 hshown
  obtain ⟨asked, txid, -, ⟨htokens, -⟩, -, hanswer⟩ := arrives_of_query hread h hquery
  rw [htokens]
  obtain ⟨r, -, hnone, -⟩ | ⟨_, htoken', -, hcases⟩ := reply_cases asked query a.source a.supply.now
  · cases hnone.symm.trans htoken
  obtain rfl := some_inj.1 (htoken'.symm.trans htoken)
  rcases hcases with ⟨hrefused, hreply⟩ | ⟨haccepted, -, hcode, -⟩
  · rw [hreply] at hanswer
    refine iff_of_true ?_ hrefused
    obtain ⟨r, hr, -⟩ | ⟨err, herr, hsent⟩ := hanswer
    · cases hr
    · obtain rfl := Except.error.inj herr
      exact ⟨txid, hsent⟩
  · refine iff_of_false ?_ (by rw [haccepted]; decide)
    rintro ⟨txid', hrefused⟩
    obtain ⟨r, -, hsent⟩ | ⟨err, hreply, hsent⟩ := hanswer
    all_goals
      rw [hsent] at hrefused
      have hmessage := congrArg Prod.fst (List.cons.inj hrefused).1
    · cases hmessage
    · obtain ⟨-, hcode', hmessage⟩ := KrpcMessage.error.inj hmessage
      rw [hreply, ← hcode', ← hmessage] at hcode
      exact hcode rfl

end

end

/-- A node that answers, all of whose queries lie in the past, with tokens
that stand to the first ones as the queries tell. -/
structure SinceInv (ipv6 : Bool) (first : TokenSecrets) (es : List NodeEvent) (s : Dht × ℕ) :
    Prop where
  readOnly : s.1.readOnly = false
  family : s.1.ipv6 = ipv6
  past : ∀ q, Queried ipv6 es q → q ≤ s.2
  since : Since ipv6 first es s.2 s.1.tokens

theorem SinceInv.step (hs : SinceInv ipv6 first es s) (h : answering.step s e t) :
    SinceInv ipv6 first (es ++ [e]) t := by
  obtain ⟨htime, hfamily, hreadOnly, hcases⟩ := answering_cases hs.readOnly h
  rw [hs.family] at hfamily hcases
  refine ⟨hreadOnly, hfamily, fun q hq => ?_, ?_⟩
  · rcases hq.append_cases with hq | ⟨a, rfl, -, rfl⟩
    · exact (hs.past q hq).trans htime
    · exact h.2.2.ge
  · rcases hcases with ⟨htokens, hidle⟩ | ⟨a, rfl, hquery, hnow, htokens⟩
    · rw [htokens]
      exact hs.since.idle htime fun a ha => (hidle a ha).1
    · rw [htokens, hnow]
      exact hs.since.queried hs.past (htime.trans hnow.le) hquery

theorem SinceInv.of_run (hread : s.1.readOnly = false) (hfamily : s.1.ipv6 = ipv6)
    (hrun : answering.Run s es t) : SinceInv ipv6 s.1.tokens es t := by
  refine LTS.Run.history (I := SinceInv ipv6 s.1.tokens) ?_ hrun ?_
  · exact fun _ _ _ _ hs hstep => hs.step hstep
  · refine ⟨hread, hfamily, ?_, .same ?_⟩
    all_goals
      rintro q ⟨a, ha, -⟩
      cases ha

omit [Ed25519] in
theorem accepts_eq_false_iff {ip : IpAddr}
    (h : Since ipv6 first (es ++ [.arrives a]) a.supply.now tokens)
    (hquery : (a.query ipv6).isSome)
    (hfresh : ∀ secret, MadeUp (es ++ [.arrives a]) secret →
      tokenFor secret ip ≠ tokenFor first.current ip) :
    tokens.accepts ip (tokenFor first.current ip) = false ↔
      ∃ q, Queried ipv6 es q ∧ first.rotatedAt + tokenRotation ≤ q ∧
        q + tokenRotation ≤ a.supply.now := by
  cases h with
  | same h =>
    refine iff_of_false ?_ ?_
    · simp [TokenSecrets.accepts]
    · rintro ⟨q, hq, hdue, -⟩
      exact absurd (h q hq.append_right) (by omega)
  | once secret rotatedAt hsecret hqueried hdue hfirst hlast =>
    refine iff_of_false ?_ ?_
    · simp [TokenSecrets.accepts]
    · rintro ⟨q, hq, hdue', hagain⟩
      have hnow := hlast a.supply.now (queried_last hquery)
      rcases hfirst q hq.append_right with hearly | hlate <;> omega
  | more secret previous rotatedAt q hsecret hprevious hqueried hdue hagain =>
    refine iff_of_true ?_ ?_
    · simp [TokenSecrets.accepts, hfresh secret hsecret, hfresh previous hprevious]
    · have hpos : 0 < tokenRotation := by decide
      rcases hqueried.append_cases with hq | ⟨b, hb, -, rfl⟩
      · exact ⟨q, hq, hdue, hagain⟩
      · obtain rfl := NodeEvent.arrives.inj hb
        omega

theorem rotatedAt_of_query (hread : s.1.readOnly = false) (h : answering.step s (.arrives a) t)
    (hissues : a.Issues token) : a.supply.now < t.1.tokens.rotatedAt + tokenRotation := by
  have hpos : 0 < tokenRotation := by decide
  obtain ⟨-, -, -, ⟨-, hidle⟩ | ⟨b, hb, -, -, htokens⟩⟩ := answering_cases hread h
  · obtain ⟨txid, r, hsent, -⟩ := hissues
    rw [(hidle a rfl).2] at hsent
    cases hsent
  · obtain rfl := NodeEvent.arrives.inj hb
    rw [htokens]
    rcases rotateIfDue_cases s.1.tokens a.supply.secret a.supply.now with ⟨-, h⟩ | ⟨hearly, h⟩
    · rw [h]
      exact Nat.lt_add_of_pos_right hpos
    · rw [h]
      exact hearly

/-- **A token is good for a period, and refused after two exactly where a
query has come in between** that is a period after the rotation its secret
came from and a period before the check. Whatever else arrives, and from
any state of any node; no secret made up after the token gives it again. -/
theorem token_lifetime_iff {id : NodeId} {start : ℕ} {es₁ es₂ : List NodeEvent}
    {s₁ t₁ s₂ t₂ : Dht × ℕ} {a₁ a₂ : Arrival}
    (hrun₁ : answering.Run (Dht.new id ipv6 secret start, start) es₁ s₁)
    (hissue : answering.step s₁ (.arrives a₁) t₁) (hissues : a₁.Issues token)
    (hrun₂ : answering.Run t₁ es₂ s₂) (hcheck : answering.step s₂ (.arrives a₂) t₂)
    (hsource : a₂.source.ip = a₁.source.ip)
    (hshown : (a₂.query ipv6).bind Query.token = some token)
    (hfresh : ∀ secret, MadeUp (es₂ ++ [.arrives a₂]) secret →
      tokenFor secret a₁.source.ip ≠ token) :
    ((a₂.supply.now ≤ a₁.supply.now + tokenRotation → ¬ a₂.Refused) ∧
      (a₁.supply.now + 2 * tokenRotation < a₂.supply.now → a₂.Refused)) ↔
    (a₁.supply.now + 2 * tokenRotation < a₂.supply.now →
      ∃ q, Queried ipv6 es₂ q ∧ t₁.1.tokens.rotatedAt + tokenRotation ≤ q ∧
        q + tokenRotation ≤ a₂.supply.now) := by
  have hinv₁ : SinceInv ipv6 _ es₁ s₁ := SinceInv.of_run rfl rfl hrun₁
  have hissued := hinv₁.step hissue
  have hinv₂ := SinceInv.of_run hissued.readOnly hissued.family hrun₂
  obtain rfl := token_of_issues hinv₁.readOnly hissue hissues
  have hrotated := rotatedAt_of_query hinv₁.readOnly hissue hissues
  have hquery : (a₂.query ipv6).isSome := by
    obtain ⟨query, hquery, -⟩ := bind_eq_some_iff.1 hshown
    rw [hquery]
    rfl
  have hsince := (hinv₂.step hcheck).since
  rw [show t₂.2 = a₂.supply.now from hcheck.2.2] at hsince
  rw [← hinv₂.family] at hshown
  have hrefused := refused_iff hinv₂.readOnly hcheck hshown
  rw [hsource, accepts_eq_false_iff hsince hquery hfresh] at hrefused
  rw [hrefused]
  constructor
  · exact fun h => h.2
  · refine fun h => ⟨?_, h⟩
    rintro hsoon ⟨q, -, hdue, hagain⟩
    omega

end Runs

/-- A query for peers. -/
def sampleGetPeers : List UInt8 :=
  key "d1:ad2:id20:aaaaaaaaaaaaaaaaaaaa9:info_hash20:aaaaaaaaaaaaaaaaaaaae" ++
    key "1:q9:get_peers1:t1:x1:y1:qe"

/-- An announcement, with the token that a secret of zeros gives. -/
def sampleAnnounce : List UInt8 :=
  key "d1:ad2:id20:aaaaaaaaaaaaaaaaaaaa9:info_hash20:aaaaaaaaaaaaaaaaaaaa4:porti1e5:token8:" ++
    List.replicate 8 0 ++ key "e1:q13:announce_peer1:t1:x1:y1:qe"

/-- A node whose secret is zeros. -/
def idleDht : Dht := .new (.replicate 20 0) false (.replicate 20 0) 0

/-- An address. -/
def askerAddr : SocketAddr := ⟨.v4 ⟨[10, 0, 0, 1], rfl⟩, 6881⟩

/-- A datagram that reaches a node from the address at a time; a secret that
is made up meanwhile has a number in every byte. -/
def fromAsker (d : Dht) (data : List UInt8) (now : ℕ) (secret : UInt8) : Arrival :=
  let w : Supply := ⟨now, .replicate 20 secret, 0, .replicate 20 0, fun _ => now⟩
  ⟨data, askerAddr, w, (@handleInbound .spread .lax d data askerAddr w).2.2⟩

/-- The node after a datagram. -/
def afterArrival (d : Dht) (a : Arrival) : Dht :=
  (@handleInbound .spread .lax d a.data a.source a.supply).2.1

theorem step_fromAsker (data : List UInt8) {before : ℕ} (hle : before ≤ now)
    (secret : UInt8) :
    (@answering .spread .lax).step (d, before) (.arrives (fromAsker d data now secret))
      (afterArrival d (fromAsker d data now secret), now) :=
  ⟨hle, rfl, rfl⟩

/-- The query that the node hands out a token for. -/
def askerQuery : Arrival := fromAsker idleDht sampleGetPeers 0 1

theorem step_askerQuery : (@answering .spread .lax).step (idleDht, 0) (.arrives askerQuery)
    (afterArrival idleDht askerQuery, 0) :=
  step_fromAsker idleDht sampleGetPeers le_rfl 1

theorem issues_askerQuery : askerQuery.Issues (replicate 8 0) := by
  have htoken : @tokenFor .spread (afterArrival idleDht askerQuery).tokens.current
      askerQuery.source.ip = replicate 8 0 := by decide +kernel
  rw [← htoken]
  exact @issues_of_query _ .spread .lax _ _ rfl step_askerQuery (by decide +kernel)

theorem token_lifetime_iff_sample :
    ∃ a₁ a₂ : Arrival, a₁.Issues (List.replicate 8 0) ∧ a₁.supply.now = 0 ∧
      a₂.supply.now = 3 * tokenRotation ∧ a₂.Refused := by
  let b := fromAsker (afterArrival idleDht askerQuery) sampleGetPeers tokenRotation 2
  have hmiddle := step_fromAsker (afterArrival idleDht askerQuery) sampleGetPeers
    (Nat.zero_le tokenRotation) 2
  have hcheck := step_fromAsker (afterArrival (afterArrival idleDht askerQuery) b) sampleAnnounce
    (show tokenRotation ≤ 3 * tokenRotation by decide) 3
  have hlifetime := @token_lifetime_iff false _ .spread .lax _ _ _ _ _ _ _ _ _ _ _ .nil
    step_askerQuery issues_askerQuery (LTS.Run.nil.snoc hmiddle) hcheck rfl (by decide +kernel) (by
      rintro secret ⟨a, ha, rfl⟩
      simp only [nil_append, cons_append, mem_cons, not_mem_nil, or_false,
        NodeEvent.arrives.injEq] at ha
      rcases ha with rfl | rfl <;> decide +kernel)
  have hasked : ∃ q, Queried false ([] ++ [.arrives b]) q ∧
      (afterArrival idleDht askerQuery).tokens.rotatedAt + tokenRotation ≤ q ∧
      q + tokenRotation ≤ 3 * tokenRotation :=
    ⟨tokenRotation, ⟨b, by simp, by decide +kernel, rfl⟩, by decide +kernel, by decide⟩
  exact ⟨askerQuery, _, issues_askerQuery, rfl, rfl, (hlifetime.2 fun _ => hasked).2 (by decide)⟩

/-- **A token is accepted three periods after it was issued** by a node that
nobody asked anything meanwhile. -/
theorem token_outlives :
    let _ := Digests.spread
    let _ := Ed25519.lax
    ∃ a₁ t₁ a₂ t₂, answering.step (idleDht, 0) (.arrives a₁) t₁ ∧ a₁.Issues (List.replicate 8 0) ∧
      answering.step t₁ (.arrives a₂) t₂ ∧ a₂.source.ip = a₁.source.ip ∧
      (a₂.query false).bind Query.token = some (List.replicate 8 0) ∧
      tokenFor a₂.supply.secret a₁.source.ip ≠ List.replicate 8 0 ∧
      a₁.supply.now + 2 * tokenRotation < a₂.supply.now ∧ ¬ a₂.Refused := by
  intro _ _
  have hcheck := step_fromAsker (afterArrival idleDht askerQuery) sampleAnnounce
    (Nat.zero_le (3 * tokenRotation)) 3
  refine ⟨askerQuery, _, _, _, step_askerQuery, issues_askerQuery, hcheck, rfl,
    by decide +kernel, by decide +kernel, by decide +kernel, ?_⟩
  rw [refused_iff (by decide +kernel) hcheck (show _ = some (List.replicate 8 0) by decide +kernel)]
  decide +kernel

end BitTorrent.Dht
