import BitTorrent.Dht.Lookup

/-!
# What a lookup believes

A lookup waits for answers under the transaction ids of its queries.
-/

namespace BitTorrent.Dht

open List

variable {α : Type} {p : Purpose α} {l m : Looking α} {e : LookupEvent} {es : List LookupEvent}

/-- A query that is among the ones sent. -/
def SentIn (sent : List Datagram) (t : Txid) (addr : SocketAddr) : Prop :=
  ∃ query, (.query t query, addr) ∈ sent

/-- **The lookup has sent a query** with that transaction id to that
address. -/
def Asked (es : List LookupEvent) (t : Txid) (addr : SocketAddr) : Prop :=
  ∃ sent, .asks sent ∈ es ∧ SentIn sent t addr

/-- The response that a step believes, and where it came from. -/
def LookupEvent.answer : LookupEvent → Option (Response × SocketAddr)
  | .hears _ response source (some _) => some (response, source)
  | _ => none

theorem Asked.mono {fs : List LookupEvent} {t : Txid} {addr : SocketAddr}
    (h : Asked es t addr) : Asked (es ++ fs) t addr := by
  obtain ⟨sent, hmem, hsent⟩ := h
  exact ⟨sent, mem_append_left _ hmem, hsent⟩

/-- Where the queries of a step go. -/
def LookupEvent.sentTo : LookupEvent → List SocketAddr
  | .asks sent => sent.map Prod.snd
  | _ => []

theorem askEach_spec (query : Query) (sendable : ℕ → Bool) (i : ℕ) (ns : List CompactNode)
    (d : Dht) (s : Search α) {r : List Datagram × Dht × Search α}
    (h : Looking.askEach query sendable i ns d s = r) :
    r.2.2.found = s.found ∧
    (∀ t n, r.2.2.pending.lookup t = some n → s.pending.lookup t = some n ∨ SentIn r.1 t n.addr) ∧
    (r.1.map Prod.snd).Sublist (ns.map CompactNode.addr) ∧
    r.2.2.queriesSent = s.queriesSent + r.1.length ∧
    r.2.2.queried = s.queried ∪ (ns.map CompactNode.addr).toFinset := by
  subst h
  induction ns generalizing i d s with
  | nil => exact ⟨rfl, fun t n h => .inl h, .refl _, rfl, by simp [Looking.askEach]⟩
  | cons n ns ih =>
    have hinsert : insert n.addr s.queried ∪ (ns.map CompactNode.addr).toFinset =
        s.queried ∪ ((n :: ns).map CompactNode.addr).toFinset := by
      rw [map_cons, toFinset_cons, Finset.union_insert, Finset.insert_union]
    rw [Looking.askEach]
    split
    · obtain ⟨hfound, hpending, hsub, hcount, hqueried⟩ :=
        ih (i + 1) d.nextTxid.2 (s.note d.nextTxid.1 n)
      refine ⟨hfound, fun t n' h => ?_, hsub.cons_cons n.addr, ?_, hqueried.trans hinsert⟩
      · rcases hpending t n' h with h | ⟨q, hq⟩
        · by_cases ht : t = d.nextTxid.1
          · subst ht
            rw [Search.note, AList.lookup_insert] at h
            obtain rfl := Option.some_inj.1 h
            exact .inr ⟨query, mem_cons_self ..⟩
          · rw [Search.note, AList.lookup_insert_ne ht] at h
            exact .inl h
        · exact .inr ⟨q, mem_cons_of_mem _ hq⟩
      · rw [hcount, length_cons]
        exact Nat.add_right_comm _ 1 _
    · obtain ⟨hfound, hpending, hsub, hcount, hqueried⟩ := ih (i + 1) d.nextTxid.2 (s.giveUp n)
      exact ⟨hfound, hpending, hsub.cons n.addr, hcount, hqueried.trans hinsert⟩

/-- What a step sends: queries to candidates it chose, if it may, each of
which is counted and noted. -/
structure Asks (target : NodeId) (l : Looking α) (e : LookupEvent) (m : Looking α) : Prop where
  sub : e.sentTo.Sublist ((l.search.sorted target).toQuery.map CompactNode.addr)
  may : e.sentTo = [] ∨ l.search.queriesSent < maxLookupQueries
  count : m.search.queriesSent = l.search.queriesSent + e.sentTo.length
  noted : l.search.queried ∪ e.sentTo.toFinset ⊆ m.search.queried

theorem Asks.of_eq {target : NodeId} (he : e.sentTo = [])
    (hqueried : m.search.queried = l.search.queried)
    (hcount : m.search.queriesSent = l.search.queriesSent) : Asks target l e m :=
  ⟨by simp [he], .inl he, by simp [he, hcount], by simp [he, hqueried]⟩

theorem turn_cases {timeUp : Bool} {sendable : ℕ → Bool} (h : l.turn p timeUp sendable = (e, m)) :
    m.search.found = l.search.found ∧ Asks p.target l e m ∧
    ((e = .ends ∧ m.search.pending = l.search.pending) ∨
      ∃ sent, e = .asks sent ∧ ∀ t n, m.search.pending.lookup t = some n →
        l.search.pending.lookup t = some n ∨ SentIn sent t n.addr) := by
  unfold Looking.turn at h
  dsimp only at h
  split at h
  · cases h
    exact ⟨rfl, .of_eq rfl rfl rfl, .inl ⟨rfl, rfl⟩⟩
  · split at h
    · cases h
      exact ⟨rfl, .of_eq rfl rfl rfl, .inl ⟨rfl, rfl⟩⟩
    · split at h
      · rename_i hmay
        cases h
        obtain ⟨hfound, hpending, hsub, hcount, hqueried⟩ := askEach_spec
          (p.ask l.node.nodeId (l.search.sorted p.target).found) sendable 0
          (l.search.sorted p.target).toQuery l.node (l.search.sorted p.target) rfl
        refine ⟨hfound, ⟨hsub, .inr hmay, ?_, ?_⟩, .inr ⟨_, rfl, hpending⟩⟩
        · exact hcount.trans (congrArg (l.search.queriesSent + ·) (length_map _).symm)
        · rw [hqueried]
          exact Finset.union_subset_union_right fun a ha =>
            mem_toFinset.2 (hsub.mem (mem_toFinset.1 ha))
      · split at h
        · cases h
          exact ⟨rfl, .of_eq rfl rfl rfl, .inl ⟨rfl, rfl⟩⟩
        · cases h
          exact ⟨rfl, .of_eq rfl rfl rfl, .inr ⟨[], rfl, fun t n h => .inl h⟩⟩

variable {source : SocketAddr}

theorem exists_of_foldl {β γ : Type} {f : β → γ → β} {P : β → Prop} {Q : γ → Prop}
    (hf : ∀ b c, P (f b c) → P b ∨ Q c) {cs : List γ} {b : β} (h : P (cs.foldl f b)) :
    P b ∨ ∃ c ∈ cs, Q c := by
  induction cs generalizing b with
  | nil => exact .inl h
  | cons c cs ih =>
    rcases ih h with h | ⟨c', hmem, hc'⟩
    · exact (hf b c h).imp_right fun hc => ⟨c, mem_cons_self .., hc⟩
    · exact .inr ⟨c', mem_cons_of_mem _ hmem, hc'⟩

variable {g : Gathered}

theorem mem_peers_add {peer x : SocketAddr} (h : x ∈ (g.add peer).result.peers) :
    x ∈ g.result.peers ∨ peer = x := by
  unfold Gathered.add at h
  split at h
  · exact .inl h
  · rw [mem_append, mem_singleton] at h
    exact h.imp_right Eq.symm

variable {r : Response}

theorem mem_peers_take {x : SocketAddr}
    (h : x ∈ (Gathered.take r source g).result.peers) : x ∈ g.result.peers ∨ x ∈ r.values := by
  have h : x ∈ (r.values.foldl Gathered.add g).result.peers := by
    unfold Gathered.take at h
    dsimp only at h
    split at h <;> exact h
  rcases exists_of_foldl (P := fun g : Gathered => x ∈ g.result.peers) (Q := (· = x))
    (fun _ _ => mem_peers_add) h with h | ⟨peer, hmem, rfl⟩
  · exact .inl h
  · exact .inr hmem

theorem tokens_foldl_add (peers : List SocketAddr) (g : Gathered) :
    (peers.foldl Gathered.add g).result.tokens = g.result.tokens := by
  induction peers generalizing g with
  | nil => rfl
  | cons peer peers ih =>
    rw [foldl_cons, ih]
    unfold Gathered.add
    split <;> rfl

theorem mem_tokens_take {x : CompactNode × List UInt8}
    (h : x ∈ (Gathered.take r source g).result.tokens) :
    x ∈ g.result.tokens ∨ (r.token = some x.2 ∧ x.1 = ⟨r.id, source⟩) := by
  unfold Gathered.take at h
  dsimp only at h
  split at h
  · rw [tokens_foldl_add] at h
    exact .inl h
  · rename_i token htoken
    rw [tokens_foldl_add, mem_append, mem_singleton] at h
    rcases h with h | rfl
    · exact .inl h
    · exact .inr ⟨htoken, rfl⟩

section Runs

variable [Digests] [Ed25519]

theorem receive_cases {r : Received} {w : Supply} (h : l.receive p r w = (e, m)) :
    (∃ t response source asked d, e = .hears t response source (some asked) ∧
      l.search.pending.lookup t = some asked ∧
      m.search = Looking.answered p d l.search t response source) ∨
    (e.answer = none ∧ (∀ sent, e ≠ .asks sent) ∧ (m.search = l.search ∨
        (e = .silence ∧ m.search = { l.search with pending := ∅ }))) := by
  unfold Looking.receive at h
  cases r with
  | failed =>
    cases h
    exact .inr ⟨rfl, nofun, .inl rfl⟩
  | silence =>
    cases h
    exact .inr ⟨rfl, nofun, .inr ⟨rfl, rfl⟩⟩
  | datagram data source =>
    dsimp only at h
    split at h
    · cases h
      exact .inr ⟨rfl, nofun, .inl rfl⟩
    · split at h
      · cases h
        exact .inr ⟨rfl, nofun, .inl rfl⟩
      · rename_i hpending
        cases h
        exact .inl ⟨_, _, _, _, _, rfl, hpending, rfl⟩

/-- **What a lookup has found is what the answers made of it**, and what it
waits for it has asked. -/
structure Tracked (p : Purpose α) (start : α) (es : List LookupEvent) (l : Looking α) : Prop where
  found : l.search.found =
    (es.filterMap LookupEvent.answer).foldl (fun a h => p.take h.1 h.2 a) start
  asked : ∀ t n, l.search.pending.lookup t = some n → Asked es t n.addr

theorem tracked_step {start : α} (hl : Tracked p start es l) (h : (looking p).step l e m) :
    Tracked p start (es ++ [e]) m := by
  have hold : ∀ t n, l.search.pending.lookup t = some n → Asked (es ++ [e]) t n.addr :=
    fun t n hn => (hl.asked t n hn).mono
  have hnone : e.answer = none → m.search.found = l.search.found → m.search.found =
      ((es ++ [e]).filterMap LookupEvent.answer).foldl (fun a h => p.take h.1 h.2 a) start := by
    intro hanswer hfound
    rw [hfound, hl.found, filterMap_append, filterMap_cons_none hanswer, filterMap_nil, append_nil]
  rcases h with ⟨-, timeUp, sendable, h⟩ | ⟨-, r, w, h⟩
  · obtain ⟨hfound, -, ⟨rfl, hpending⟩ | ⟨sent, rfl, hpending⟩⟩ := turn_cases h
    · exact ⟨hnone rfl hfound, fun t n hn => hold t n (hpending ▸ hn)⟩
    · refine ⟨hnone rfl hfound, fun t n hn => ?_⟩
      rcases hpending t n hn with hn | hsent
      · exact hold t n hn
      · exact ⟨sent, by simp, hsent⟩
  · rcases receive_cases h with ⟨t, response, source, asked, d, rfl, hwaited, hsearch⟩ |
      ⟨hanswer, -, hsearch | ⟨-, hsearch⟩⟩
    · refine ⟨?_, fun t' n hn => hold t' n ?_⟩
      · rw [hsearch, filterMap_append, foldl_append, ← hl.found]
        rfl
      · rw [hsearch] at hn
        by_cases ht : t' = t
        · rw [ht] at hn
          exact absurd hn (by simp [Looking.answered, AList.lookup_erase])
        · rwa [Looking.answered, AList.lookup_erase_ne ht] at hn
    · exact ⟨hnone hanswer (by rw [hsearch]), fun t n hn => hold t n (hsearch ▸ hn)⟩
    · refine ⟨hnone hanswer (by rw [hsearch]), fun t n hn => ?_⟩
      rw [hsearch] at hn
      cases hn

variable {begin : Looking α}

theorem tracked_of_run (hrun : (looking p).Run begin es l)
    (hbegin : begin.search.pending = ∅) : Tracked p begin.search.found es l := by
  refine LTS.Run.history (I := Tracked p begin.search.found) ?_ hrun ?_
  · exact fun _ _ _ _ hl hstep => tracked_step hl hstep
  · refine ⟨rfl, fun t n hn => ?_⟩
    rw [hbegin] at hn
    cases hn

/-- **A response to a query of the lookup**, from the address that the
query with its transaction id had been sent to. -/
def AnsweredBy (es : List LookupEvent) (t : Txid) (response : Response) (source : SocketAddr) :
    Prop :=
  ∃ before after asked,
    es = before ++ .hears t response source asked :: after ∧ Asked before t source

/-- **A response that is waited for comes from where the query went.** -/
def LookupEvent.Genuine : LookupEvent → Prop
  | .hears _ _ source (some asked) => source = asked.addr
  | _ => True

variable {response : Response}

theorem answeredBy_of_run (hbegin : begin.search.pending = ∅)
    (hrun : ((looking p).restrict fun _ e _ => e.Genuine).Run begin es l)
    (h : (response, source) ∈ es.filterMap LookupEvent.answer) :
    ∃ t, AnsweredBy es t response source := by
  refine (LTS.Run.history (I := fun es l => Tracked p begin.search.found es l ∧
    ∀ response source, (response, source) ∈ es.filterMap LookupEvent.answer →
      ∃ t, AnsweredBy es t response source) ?_ hrun ?_).2 response source h
  · rintro es l e m ⟨hl, hanswers⟩ ⟨hstep, hgenuine⟩
    refine ⟨tracked_step hl hstep, fun response source hmem => ?_⟩
    rw [filterMap_append, mem_append] at hmem
    rcases hmem with hmem | hmem
    · obtain ⟨t, before, after, asked, rfl, hasked⟩ := hanswers response source hmem
      exact ⟨t, before, after ++ [e], asked, by simp, hasked⟩
    · obtain ⟨e', he', hanswer⟩ := mem_filterMap.1 hmem
      obtain rfl := mem_singleton.1 he'
      rcases hstep with ⟨-, timeUp, sendable, hturn⟩ | ⟨-, r, w, hreceive⟩
      · obtain ⟨-, -, ⟨rfl, -⟩ | ⟨sent, rfl, -⟩⟩ := turn_cases hturn <;> cases hanswer
      · rcases receive_cases hreceive with ⟨t, response', source', asked, d, rfl, hwaited, -⟩ |
          ⟨hnone, -⟩
        · obtain ⟨rfl, rfl⟩ := Prod.mk.inj (Option.some_inj.1 hanswer)
          refine ⟨t, es, [], some asked, rfl, ?_⟩
          have hsource : source' = asked.addr := hgenuine
          rw [hsource]
          exact hl.asked t asked hwaited
        · rw [hnone] at hanswer
          cases hanswer
  · refine ⟨⟨rfl, fun t n hn => ?_⟩, nofun⟩
    rw [hbegin] at hn
    cases hn

/-- **What a lookup returns came from the addresses it asked**, in every
run in which each response under an id that is waited for comes from where
the query went; and a response from any other address changes nothing. -/
theorem found_from_asked {d : Dht} {target : NodeId} {wantPeers : Bool} {seeds : List SocketAddr}
    {l : Looking Gathered}
    (hrun : ((looking (lookupPurpose target wantPeers)).restrict fun _ e _ => e.Genuine).Run
      (beginLookup d target seeds) es l) :
    (∀ peer ∈ (l.search.found.finish target).peers,
      ∃ t response source, AnsweredBy es t response source ∧ peer ∈ response.values) ∧
    (∀ node token, (node, token) ∈ (l.search.found.finish target).tokens →
      ∃ t response source, AnsweredBy es t response source ∧ response.token = some token ∧
        node = ⟨response.id, source⟩) ∧
    ∀ e m, ((looking (lookupPurpose target wantPeers)).restrict fun _ e _ => e.Genuine).step l e m →
      ∀ t response source asked, e = .hears t response source asked → ¬ Asked es t source →
        m.search = l.search := by
  have htracked := tracked_of_run hrun.of_restrict rfl
  refine ⟨fun peer hpeer => ?_, fun node token htoken => ?_, ?_⟩
  · have hpeer : peer ∈ l.search.found.result.peers := hpeer
    rw [htracked.found] at hpeer
    rcases exists_of_foldl (P := fun g : Gathered => peer ∈ g.result.peers)
      (Q := fun h => peer ∈ h.1.values) (fun _ _ => mem_peers_take) hpeer with hpeer | hpeer
    · cases hpeer
    · obtain ⟨⟨response, source⟩, hmem, hvalue⟩ := hpeer
      obtain ⟨t, hanswered⟩ := answeredBy_of_run rfl hrun hmem
      exact ⟨t, response, source, hanswered, hvalue⟩
  · have htoken : (node, token) ∈ l.search.found.result.tokens :=
      (mem_insertionSort _).1 htoken
    rw [htracked.found] at htoken
    rcases exists_of_foldl (P := fun g : Gathered => (node, token) ∈ g.result.tokens)
      (Q := fun h => h.1.token = some token ∧ node = ⟨h.1.id, h.2⟩)
      (fun _ _ => mem_tokens_take) htoken with htoken | htoken
    · cases htoken
    · obtain ⟨⟨response, source⟩, hmem, hgiven⟩ := htoken
      obtain ⟨t, hanswered⟩ := answeredBy_of_run rfl hrun hmem
      exact ⟨t, response, source, hanswered, hgiven⟩
  · rintro e m ⟨hstep, hgenuine⟩ t response source asked rfl hother
    rcases hstep with ⟨-, timeUp, sendable, hturn⟩ | ⟨-, r, w, hreceive⟩
    · obtain ⟨-, -, ⟨h, -⟩ | ⟨sent, h, -⟩⟩ := turn_cases hturn <;> cases h
    · rcases receive_cases hreceive with ⟨t', response', source', node, d', he, hwaited, -⟩ |
        ⟨-, -, hsearch | ⟨h, -⟩⟩
      · cases he
        have hsource : source = node.addr := hgenuine
        exact absurd (hsource ▸ htracked.asked t node hwaited) hother
      · exact hsearch
      · cases h

end Runs

/-! A lookup of one turn, for a run to try the result on: one address is
asked, and a response under the id of the query comes from some address. -/

instance : DecidablePred LookupEvent.Genuine
  | .hears _ _ source (some asked) => inferInstanceAs (Decidable (source = asked.addr))
  | .hears _ _ _ none => isTrue trivial
  | .asks _ => isTrue trivial
  | .serves _ => isTrue trivial
  | .silence => isTrue trivial
  | .ends => isTrue trivial

/-- Where a response comes from. -/
def LookupEvent.heardFrom : LookupEvent → Option SocketAddr
  | .hears _ _ source _ => some source
  | _ => none

theorem mem_of_answeredBy {t : Txid} (h : AnsweredBy es t response source) :
    source ∈ es.flatMap LookupEvent.sentTo ∧ source ∈ es.filterMap LookupEvent.heardFrom := by
  obtain ⟨before, after, asked, rfl, sent, hmem, query, hsent⟩ := h
  constructor
  · exact mem_flatMap.2 ⟨_, mem_append_left _ hmem, mem_map.2 ⟨_, hsent, rfl⟩⟩
  · exact mem_filterMap.2 ⟨_, mem_append_right _ (mem_cons_self ..), rfl⟩

/-- An address by its last octet. -/
def sampleAddr (last : UInt8) : SocketAddr := ⟨.v4 ⟨[10, 0, 0, last], rfl⟩, 6881⟩

/-- A node that knows nobody. -/
def sampleDht : Dht := .new (.replicate 20 0) false (.replicate 20 0) 0

/-- A node that knows the addresses that end in 1 and in 2. -/
def sampleNode : Dht :=
  { sampleDht with
    table := (sampleDht.table.insert ⟨.replicate 20 1, sampleAddr 1⟩ 0).insert
      ⟨.replicate 20 2, sampleAddr 2⟩ 0 }

/-- A response to the first query of a node, with one peer in it. -/
def sampleReply : List UInt8 :=
  key "d1:rd2:id20:aaaaaaaaaaaaaaaaaaaa6:valuesl6:abcdefee1:t2:" ++ [0, 1] ++ key "1:y1:re"

/-- The time and the random bytes of a step. -/
def sampleSupply : Supply := ⟨0, .replicate 20 0, 0, .replicate 20 0, fun _ => 0⟩

/-- The next step of a lookup, if it is allowed: a turn that can send to
everyone or, where it waits, what comes of `r`. -/
def nextLooking [Digests] [Ed25519] (p : Purpose α) (allowed : Looking α → LookupEvent → Bool)
    (l : Looking α) (r : Received) : Option (LookupEvent × Looking α) :=
  Option.filter (fun next => allowed l next.1) <| match l.phase with
    | .top => some (l.turn p false fun _ => true)
    | .waiting => some (l.receive p r sampleSupply)
    | .ended => none

theorem step_of_nextLooking [Digests] [Ed25519] {allowed : Looking α → LookupEvent → Bool}
    {G : Looking α → LookupEvent → Looking α → Prop} (hG : ∀ l e m, allowed l e = true → G l e m)
    (l : Looking α) (r : Received) (e : LookupEvent) (m : Looking α)
    (h : nextLooking p allowed l r = some (e, m)) : ((looking p).restrict G).step l e m := by
  obtain ⟨hnext, hallowed⟩ := Option.filter_eq_some_iff.1 h
  refine ⟨?_, hG l e m hallowed⟩
  split at hnext
  · rename_i htop
    exact .inl ⟨htop, false, fun _ => true, Option.some_inj.1 hnext⟩
  · rename_i hwaiting
    exact .inr ⟨hwaiting, r, sampleSupply, Option.some_inj.1 hnext⟩
  · cases hnext

/-- The lookup of the samples asks the address that ends in 1, and a
response comes from an address. -/
abbrev sampleDrive [Digests] [Ed25519] (allowed : Looking Gathered → LookupEvent → Bool)
    (source : SocketAddr) : Option (List LookupEvent × Looking Gathered) :=
  LTS.drive (nextLooking (lookupPurpose (.replicate 20 0) true) allowed)
    (beginLookup sampleDht (.replicate 20 0) [sampleAddr 1])
    [.silence, .datagram sampleReply source]

theorem found_from_asked_sample :
    let _ := Digests.zero
    let _ := Ed25519.lax
    ∃ es l, ((looking (lookupPurpose (.replicate 20 0) true)).restrict fun _ e _ => e.Genuine).Run
      (beginLookup sampleDht (.replicate 20 0) [sampleAddr 1]) es l ∧
    ∃ peer ∈ (l.search.found.finish (.replicate 20 0)).peers, ∃ t response source,
      AnsweredBy es t response source ∧ peer ∈ response.values := by
  let _ := Digests.zero
  let _ := Ed25519.lax
  have hdrive : ∃ r ∈ sampleDrive (fun _ e => decide e.Genuine) (sampleAddr 1),
      ∃ peer ∈ (r.2.search.found.finish (.replicate 20 0)).peers, True := by
    decide +kernel
  obtain ⟨⟨es, l⟩, hdrive, peer, hpeer, -⟩ := hdrive
  have hrun := LTS.run_of_drive
    (step_of_nextLooking (G := fun _ e _ => e.Genuine) fun _ _ _ => of_decide_eq_true) hdrive
  exact ⟨es, l, hrun, peer, hpeer, (found_from_asked hrun).1 peer hpeer⟩

/-- **A response from any other address is believed as well**: the address
that ends in 2 was never asked, and the peer it names is returned. -/
theorem found_from_stranger :
    let _ := Digests.zero
    let _ := Ed25519.lax
    ∃ es l, (looking (lookupPurpose (.replicate 20 0) true)).Run
      (beginLookup sampleDht (.replicate 20 0) [sampleAddr 1]) es l ∧
    ∃ peer ∈ (l.search.found.finish (.replicate 20 0)).peers, ∀ t response source,
      AnsweredBy es t response source → peer ∉ response.values := by
  let _ := Digests.zero
  let _ := Ed25519.lax
  have hdrive : ∃ r ∈ sampleDrive (fun _ _ => true) (sampleAddr 2),
      r.1.flatMap LookupEvent.sentTo = [sampleAddr 1] ∧
      r.1.filterMap LookupEvent.heardFrom = [sampleAddr 2] ∧
      ∃ peer ∈ (r.2.search.found.finish (.replicate 20 0)).peers, True := by
    decide +kernel
  obtain ⟨⟨es, l⟩, hdrive, hsentTo, hheardFrom, peer, hpeer, -⟩ := hdrive
  have hrun := LTS.run_of_drive
    (step_of_nextLooking (G := fun _ _ _ => True) fun _ _ _ _ => trivial) hdrive
  refine ⟨es, l, hrun.of_restrict, peer, hpeer, fun t response source hanswered => ?_⟩
  obtain ⟨hsent, hheard⟩ := mem_of_answeredBy hanswered
  rw [hsentTo, mem_singleton] at hsent
  rw [hheardFrom, mem_singleton, hsent] at hheard
  exact absurd hheard (by decide)

end BitTorrent.Dht
