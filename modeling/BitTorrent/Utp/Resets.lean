import BitTorrent.Utp.Calls
import BitTorrent.Utp.Sockets

/-!
# The answer to a packet of a forgotten connection

A connection sends under one id and is filed under the other.
-/

namespace BitTorrent.Utp

open List Packet Connection Shared

variable {F : Type}

namespace Connection

/-- The id on a packet of a kind. -/
def idOn (c : Connection F) (kind : PacketType) : UInt16 :=
  if kind = .syn then c.recvId else c.sendId

/-- Everything a connection has to say is under its ids. -/
def Addressed (c : Connection F) : Prop :=
  ∀ p ∈ c.outgoing, p.connectionId = c.idOn p.kind

/-- `d` has the ids of `c`, and says what it adds under them. -/
structure SpeaksAs (c d : Connection F) : Prop where
  sendId : d.sendId = c.sendId
  recvId : d.recvId = c.recvId
  addressed : c.Addressed → d.Addressed

/-- The core `s` has the ids of `c`, and says what it adds under them. -/
structure SpeaksIn (c : Connection F) (s : Core) : Prop where
  sendId : s.sendId = c.sendId
  recvId : s.recvId = c.recvId
  addressed : c.Addressed → ∀ p ∈ s.outgoing, p.connectionId = c.idOn p.kind

variable {c d e : Connection F}

theorem SpeaksAs.trans (h : SpeaksAs c d) (h' : SpeaksAs d e) : SpeaksAs c e :=
  ⟨h'.sendId.trans h.sendId, h'.recvId.trans h.recvId, fun hc => h'.addressed (h.addressed hc)⟩

theorem speaksAs_call [F64 F] (call : Call) : SpeaksAs c (c.call call) := by
  have hput : ∀ {s : Core} {p : Packet}, SpeaksIn c s → p.connectionId = c.idOn p.kind →
      SpeaksIn c (s.put p) := by
    intro s p hs hp
    exact ⟨hs.sendId, hs.recvId, fun hc =>
      forall_mem_append.2 ⟨hs.addressed hc, forall_mem_singleton.2 hp⟩⟩
  have hturn : ∀ s t, SpeaksIn c s → Core.Turn s t → SpeaksIn c t := by
    intro s t hs hturn
    have hid : ∀ {seq : UInt16} {item : Item} {p : Packet}, s.Says seq item p →
        p.connectionId = c.idOn p.kind := by
      intro seq item p hp
      rw [hp.connectionId, hp.stamps.kind, idOn, hs.sendId, hs.recvId]
    have hsame : ∀ {t : Core}, t.sendId = s.sendId → t.recvId = s.recvId →
        t.outgoing = s.outgoing → SpeaksIn c t :=
      fun hsend hrecv hout => ⟨hsend.trans hs.sendId, hrecv.trans hs.recvId, hout ▸ hs.addressed⟩
    cases hturn with
    | sends hsends =>
      cases hsends with
      | again hx hp | state hconn hend hp | syn hconn hp => exact hput hs (hid hp)
      | data hopen hne hn hroom hp | fin hopen hne hpending hsent hp =>
        exact hput (hsame rfl rfl rfl) (hid hp)
      | _ => exact hsame rfl rfl rfl
    | aborts hp => exact hput hs (hid hp)
    | _ => exact hsame rfl rfl rfl
  have hall : SpeaksIn c (c.call call).core := by
    rcases turns_or_owns c call with hturns | hown
    · exact hturns.invariant hturn ⟨rfl, rfl, id⟩
    · generalize (c.call call).core = t at hown
      cases hown with
      | taken => exact ⟨rfl, rfl, fun _ p hp => absurd hp not_mem_nil⟩
      | _ => exact ⟨rfl, rfl, id⟩
  refine ⟨hall.sendId, hall.recvId, fun hc p hp => ?_⟩
  rw [hall.addressed hc p hp, idOn, idOn, show (c.call call).sendId = _ from hall.sendId,
    show (c.call call).recvId = _ from hall.recvId]

theorem SpeaksAs.refl : SpeaksAs c c := ⟨rfl, rfl, id⟩

theorem ids_of_starts [F64 F] (h : c.Starts) : c.sendId ≠ c.recvId ∧ c.Addressed := by
  have hne : ∀ id : UInt16, id + 1 ≠ id := by
    intro id hid
    have hlt := id.toNat_lt
    have hnat := congrArg UInt16.toNat hid
    rw [UInt16.toNat_add] at hnat
    change (id.toNat + 1) % 65536 = id.toNat at hnat
    omega
  cases h with
  | connect now recvId initialSeq =>
    refine ⟨hne recvId, fun p hp => ?_⟩
    rw [mem_singleton.1 hp]
    rfl
  | accept now syn initialSeq =>
    refine ⟨(hne syn.connectionId).symm, fun p hp => ?_⟩
    rw [mem_singleton.1 hp]
    rfl

end Connection

namespace Shared

/-- **How links are filed**: under the address of the peer and the id its
packets carry, which is not the id the connection sends under. -/
structure Filed (s : Shared F) : Prop where
  key : ∀ key id, s.links.lookup key = some id →
    ∃ link, s.made[id]? = some link ∧ key = (link.remote, link.conn.recvId)
  ids : ∀ link ∈ s.made, link.conn.sendId ≠ link.conn.recvId
  taken : ∀ link ∈ s.made, link.conn.outgoing = []

/-- The link has the peer and the ids of the other. -/
structure Link.SameEnds (link link' : Link F) : Prop where
  remote : link'.remote = link.remote
  sendId : link'.conn.sendId = link.conn.sendId
  recvId : link'.conn.recvId = link.conn.recvId

theorem Link.SameEnds.trans {a b c : Link F} (h : a.SameEnds b) (h' : b.SameEnds c) :
    a.SameEnds c :=
  ⟨h'.remote.trans h.remote, h'.sendId.trans h.sendId, h'.recvId.trans h.recvId⟩

/-- A datagram is a packet of the connection of a link, to its peer. -/
def Link.Sends (link : Link F) (dst : SocketAddr) (bytes : List UInt8) : Prop :=
  dst = link.remote ∧ ∃ p : Packet, bytes = p.encode ∧ p.connectionId = link.conn.idOn p.kind

theorem Link.SameEnds.sends {link link' : Link F} {dst : SocketAddr} {bytes : List UInt8}
    (h : link.SameEnds link') (hsends : link.Sends dst bytes) : link'.Sends dst bytes := by
  obtain ⟨hdst, p, hp, hid⟩ := hsends
  refine ⟨hdst.trans h.remote.symm, p, hp, ?_⟩
  rw [hid, idOn, idOn, h.sendId, h.recvId]

/-- **What a socket does**: links are filed as they should be, those there
were stay what they are, and what is said is a packet of the link that says
it. -/
structure Does (s : Shared F) (after : Shared F × List Datagram) : Prop where
  filed : after.1.Filed
  addr : after.1.addr = s.addr
  made : ∀ (id : ℕ) (link : Link F), s.made[id]? = some link →
    ∃ link', after.1.made[id]? = some link' ∧ link.SameEnds link'
  sends : ∀ d ∈ after.2, ∀ id, d.sayer = some id →
    ∃ link, after.1.made[id]? = some link ∧ link.Sends d.dst d.bytes

variable {s t : Shared F} {out out' : List Datagram}

theorem Does.trans (h : Does s (t, out)) {after : Shared F × List Datagram} (h' : Does t after) :
    Does s (after.1, out ++ after.2) := by
  refine ⟨h'.filed, h'.addr.trans h.addr, fun id link hlink => ?_, fun d hd id hid => ?_⟩
  · obtain ⟨link', hlink', hsame⟩ := h.made id link hlink
    obtain ⟨link'', hlink'', hsame'⟩ := h'.made id link' hlink'
    exact ⟨link'', hlink'', hsame.trans hsame'⟩
  · rcases mem_append.1 hd with hd | hd
    · obtain ⟨link, hlink, hsends⟩ := h.sends d hd id hid
      obtain ⟨link', hlink', hsame⟩ := h'.made id link hlink
      exact ⟨link', hlink', hsame.sends hsends⟩
    · exact h'.sends d hd id hid

theorem Filed.does (h : s.Filed) (haddr : t.addr = s.addr) (hmade : t.made = s.made)
    (hlinks : ∀ key id, t.links.lookup key = some id → s.links.lookup key = some id)
    (hout : ∀ d ∈ out, d.sayer = none) : Does s (t, out) := by
  refine ⟨⟨fun key id hid => ?_, ?_, ?_⟩, haddr, fun id link hlink => ?_, fun d hd id hid => ?_⟩
  · rw [hmade]
    exact h.key key id (hlinks key id hid)
  · rw [hmade]
    exact h.ids
  · rw [hmade]
    exact h.taken
  · exact ⟨link, by rw [hmade]; exact hlink, rfl, rfl, rfl⟩
  · rw [hout d hd] at hid
    cases hid

theorem Filed.does_same (h : s.Filed) (haddr : t.addr = s.addr) (hmade : t.made = s.made)
    (hlinks : t.links = s.links) : Does s (t, []) :=
  h.does haddr hmade (fun key id hid => by rw [← hlinks]; exact hid)
    fun d hd => absurd hd not_mem_nil

variable {link : Link F} {d : Datagram}

theorem sends_of_addressed {id : ℕ} (hlink : link.conn.Addressed)
    (hd : d ∈ link.conn.takeOutgoing.2.map fun bytes => ⟨link.remote, bytes, some id⟩) :
    d.sayer = some id ∧ link.Sends d.dst d.bytes := by
  obtain ⟨bytes, hbytes, rfl⟩ := mem_map.1 hd
  obtain ⟨p, hp, rfl⟩ := mem_map.1 hbytes
  exact ⟨rfl, rfl, p, rfl, hlink p hp⟩

/-- A call keeps the peer and the ids of a link, and says what it adds
under them. -/
def Keeps (call : Link F → Link F) : Prop :=
  ∀ link, (call link).remote = link.remote ∧ link.conn.SpeaksAs (call link).conn

variable {call : Link F → Link F}

theorem Filed.does_onLink (h : s.Filed) (id : ℕ) (hcall : Keeps call) :
    Does s (s.onLink id call) := by
  rw [onLink]
  split
  · exact h.does_same rfl rfl rfl
  · rename_i link hlink
    obtain ⟨hremote, hspeaks⟩ := hcall link
    have hmem : link ∈ s.made := mem_of_getElem? hlink
    have haddressed : (call link).conn.Addressed := by
      refine hspeaks.addressed fun p hp => ?_
      rw [h.taken link hmem] at hp
      exact absurd hp not_mem_nil
    have hlt : id < s.made.length := (List.getElem?_eq_some_iff.1 hlink).1
    have hsame : link.SameEnds { call link with conn := (call link).conn.takeOutgoing.1 } :=
      ⟨hremote, hspeaks.sendId, hspeaks.recvId⟩
    have hset : ∀ (id' : ℕ) (link' : Link F), s.made[id']? = some link' →
        ∃ link'', (s.made.set id { call link with conn := (call link).conn.takeOutgoing.1 })[id']? =
          some link'' ∧ link'.SameEnds link'' := by
      intro id' link' hlink'
      rw [getElem?_set]
      split
      · rename_i heq
        subst heq
        rw [hlink] at hlink'
        cases hlink'
        exact ⟨_, rfl, hsame⟩
      · exact ⟨link', hlink', rfl, rfl, rfl⟩
    refine ⟨⟨fun key id' hid => ?_, fun link' hlink' => ?_, fun link' hlink' => ?_⟩, rfl, hset,
      fun d hd id' hid => ?_⟩
    · obtain ⟨link', hlink', hkey⟩ := h.key key id' hid
      obtain ⟨link'', hlink'', hsame'⟩ := hset id' link' hlink'
      exact ⟨link'', hlink'', by rw [hkey, hsame'.remote, hsame'.recvId]⟩
    · rcases mem_or_eq_of_mem_set hlink' with hlink' | rfl
      · exact h.ids link' hlink'
      · rw [hsame.sendId, hsame.recvId]
        exact h.ids link hmem
    · rcases mem_or_eq_of_mem_set hlink' with hlink' | rfl
      · exact h.taken link' hlink'
      · rfl
    · rw [← hremote] at hd
      obtain ⟨hsayer, hsends⟩ := sends_of_addressed haddressed hd
      obtain rfl := Option.some.inj (hid.symm.trans hsayer)
      exact ⟨_, getElem?_set_self hlt, Link.SameEnds.sends ⟨rfl, rfl, rfl⟩ hsends⟩

theorem Filed.does_onLinks (h : s.Filed) (ids : List ℕ)
    (hcall : Keeps call) : Does s (onLinks call ids s) := by
  induction ids generalizing s with
  | nil => exact h.does_same rfl rfl rfl
  | cons id ids ih =>
    have hone := h.does_onLink id hcall
    exact hone.trans (ih hone.filed)

theorem Filed.does_forget (h : s.Filed) (keys : List Key) : Does s (s.forget keys, []) := by
  refine h.does rfl rfl (fun key id hid => ?_) (fun d hd => absurd hd not_mem_nil)
  -- what is looked up after keys have left was there before
  have hgone : ∀ (keys : List Key) (links : AList fun _ : Key => ℕ),
      (keys.foldl (fun links key => links.erase key) links).lookup key = some id →
        links.lookup key = some id := by
    intro keys
    induction keys with
    | nil => exact fun links h => h
    | cons k keys ih =>
      intro links h
      have hk := ih (links.erase k) h
      by_cases heq : key = k
      · rw [heq, AList.lookup_erase] at hk
        cases hk
      · rwa [AList.lookup_erase_ne heq] at hk
  exact hgone keys s.links hid

section

variable [F64 F]

omit [F64 F] in
theorem keeps_conn {f : Connection F → Connection F} (hf : ∀ c : Connection F, c.SpeaksAs (f c)) :
    Keeps fun link => { link with conn := f link.conn } :=
  fun link => ⟨rfl, hf link.conn⟩

theorem keeps_call (call : StreamCall) : Keeps (Link.call (F := F) call) := by
  intro link
  cases call with
  | write data now =>
    simp only [Link.call]
    split
    · exact ⟨rfl, .refl⟩
    · split
      · exact ⟨rfl, .refl⟩
      · exact ⟨rfl, (speaksAs_call (.write data)).trans (speaksAs_call (.flush now))⟩
  | read len => exact ⟨rfl, speaksAs_call (.read len)⟩
  | drop now =>
    exact ⟨rfl, (speaksAs_call .close).trans (speaksAs_call (.flush now))⟩
  | close now => exact ⟨rfl, speaksAs_call (.abort now)⟩

theorem Filed.does_file (h : s.Filed) (remote : SocketAddr) {conn : Connection F}
    (hstart : conn.Starts) : Does s (s.file remote conn) := by
  obtain ⟨hids, haddressed⟩ := ids_of_starts hstart
  have hold : ∀ (id : ℕ) (link : Link F), s.made[id]? = some link →
      (s.made ++ [⟨remote, conn.takeOutgoing.1, none⟩])[id]? = some link := by
    intro id link hlink
    rw [getElem?_append_left (List.getElem?_eq_some_iff.1 hlink).1]
    exact hlink
  have hnew : (s.made ++ [(⟨remote, conn.takeOutgoing.1, none⟩ : Link F)])[s.made.length]? =
      some ⟨remote, conn.takeOutgoing.1, none⟩ := getElem?_concat_length
  refine ⟨⟨fun key id hid => ?_, fun link hlink => ?_, fun link hlink => ?_⟩, rfl,
    fun id link hlink => ⟨link, hold id link hlink, rfl, rfl, rfl⟩, fun d hd id hid => ?_⟩
  · by_cases heq : key = (remote, conn.recvId)
    · rw [heq, show (s.file remote conn).1.links = s.links.insert (remote, conn.recvId)
        s.made.length from rfl, AList.lookup_insert] at hid
      cases hid
      exact ⟨_, hnew, heq⟩
    · rw [show (s.file remote conn).1.links = s.links.insert (remote, conn.recvId)
        s.made.length from rfl, AList.lookup_insert_ne heq] at hid
      obtain ⟨link, hlink, hkey⟩ := h.key key id hid
      exact ⟨link, hold id link hlink, hkey⟩
  · rcases mem_append.1 hlink with hlink | hlink
    · exact h.ids link hlink
    · rw [mem_singleton.1 hlink]
      exact hids
  · rcases mem_append.1 hlink with hlink | hlink
    · exact h.taken link hlink
    · rw [mem_singleton.1 hlink]
      rfl
  · have haddressed : (⟨remote, conn, none⟩ : Link F).conn.Addressed := haddressed
    obtain ⟨hsayer, hsends⟩ := sends_of_addressed haddressed hd
    obtain rfl := Option.some.inj (hid.symm.trans hsayer)
    exact ⟨_, hnew, Link.SameEnds.sends ⟨rfl, rfl, rfl⟩ hsends⟩

theorem Filed.does_connect (h : s.Filed) (remote : SocketAddr) (ids : List UInt16) (now : ℕ) :
    Does s (s.connect remote ids now) := by
  rw [connect]
  split
  · exact h.does_same rfl rfl rfl
  · exact h.does_file remote (.connect now _ 1)

omit [F64 F] in
theorem Filed.does_giveUp (h : s.Filed) (id : ℕ) : Does s (s.giveUp id, []) := by
  rw [giveUp]
  split
  · exact h.does_same rfl rfl rfl
  · split
    · exact h.does_same rfl rfl rfl
    · exact h.does_forget _

theorem Filed.does_handlePacket (h : s.Filed) (packet : Packet) (src : SocketAddr) (now : ℕ)
    (random : UInt16) : Does s (s.handlePacket packet src now random) := by
  rw [handlePacket]
  split
  · exact h.does_onLink _ (keeps_conn fun c => speaksAs_call (.packet now packet))
  · split
    · split
      · have hfile := h.does_file src (.accept now packet random)
        exact ⟨⟨hfile.filed.key, hfile.filed.ids, hfile.filed.taken⟩, hfile.addr, hfile.made,
          hfile.sends⟩
      · exact h.does_same rfl rfl rfl
    · exact h.does_same rfl rfl rfl
    · refine h.does rfl rfl (fun _ _ hid => hid) fun d hd => ?_
      rw [mem_singleton.1 hd]

theorem Filed.does_handle (h : s.Filed) (datagram : List UInt8) (src : SocketAddr) (now : ℕ)
    (random : UInt16) : Does s (s.handle datagram src now random) := by
  rw [handle]
  split
  · exact h.does_handlePacket _ src now random
  · exact h.does_same rfl rfl rfl
  · exact h.does_same rfl rfl rfl

theorem Filed.does_tick (h : s.Filed) (now : ℕ) : Does s (s.tick now) := by
  have hall : ∀ (entries : List (Key × ℕ)) {s : Shared F}, s.Filed →
      Does s ((tickAll now entries s).1, (tickAll now entries s).2.1) := by
    intro entries
    induction entries with
    | nil => exact fun h => h.does_same rfl rfl rfl
    | cons entry rest ih =>
      intro s h
      have hone := h.does_onLink entry.2 (keeps_conn fun c => speaksAs_call (c := c) (.tick now))
      exact hone.trans (ih hone.filed)
  have hloop := hall s.entries h
  have hforget := hloop.trans (hloop.filed.does_forget (tickAll now s.entries s).2.2)
  rwa [append_nil] at hforget

theorem Filed.does_shutdown (h : s.Filed) (now : ℕ) : Does s (s.shutdown now) := by
  have habort : Does s (s.abortAll now) := by
    have hempty : Does s ({ s with links := ∅ }, []) :=
      h.does rfl rfl (fun key id hid => by simp at hid) fun d hd => absurd hd not_mem_nil
    exact hempty.trans (hempty.filed.does_onLinks _
      (keeps_conn fun c => speaksAs_call (.abort now)))
  have hended : Does s (if s.stop then (s, [])
      else ({ (s.abortAll now).1 with stop := true, others := none }, (s.abortAll now).2)) := by
    split
    · exact h.does_same rfl rfl rfl
    · exact ⟨⟨habort.filed.key, habort.filed.ids, habort.filed.taken⟩, habort.addr, habort.made,
        habort.sends⟩
  have hcleared := hended.trans (hended.filed.does_same (t := { (if s.stop then (s, [])
      else ({ (s.abortAll now).1 with stop := true, others := none }, (s.abortAll now).2)).1 with
        pending := [] }) rfl rfl rfl)
  rw [append_nil] at hcleared
  exact hcleared.trans (hcleared.filed.does_onLinks _ (keeps_call (.drop now)))

end

variable {datagram : List UInt8}

theorem Filed.made_handle_reset [F64 F] (h : s.Filed) {id : ℕ} {packet : Packet}
    (src : SocketAddr) (now : ℕ) (random : UInt16)
    (hlink : s.made[id]? = some link) (hpacket : decode datagram = .ok packet)
    (hkind : packet.kind = .reset) (hid : packet.connectionId ≠ link.conn.recvId) :
    (s.handle datagram src now random).1.made[id]? = some link := by
  have hkey : packet.key = packet.connectionId := if_neg (by simp [hkind])
  simp only [handle, hpacket, handlePacket, hkind]
  split
  · rename_i other hother
    obtain ⟨link', hlink', hfiled⟩ := h.key _ other hother
    have hne : other ≠ id := by
      rintro rfl
      obtain rfl := Option.some.inj (hlink.symm.trans hlink')
      exact hid (hkey.symm.trans (congrArg Prod.snd hfiled))
    rw [onLink, hlink']
    exact (getElem?_set_ne hne).trans hlink
  · exact hlink

end Shared

namespace Sockets

variable {n n' : Sockets F} {side : Side}

theorem socket_update (side : Side) (after : Shared F × List Datagram) :
    (n.update side after).socket side = after.1 := by
  cases side <;> rfl

theorem socket_update_of_ne {side' : Side} (h : side' ≠ side) (after : Shared F × List Datagram) :
    (n.update side after).socket side' = n.socket side' := by
  cases side <;> cases side' <;> first | rfl | exact absurd rfl h

theorem sent_update (side : Side) (after : Shared F × List Datagram) :
    (n.update side after).sent = n.sent ++ after.2.map fun d =>
      ⟨(n.socket side).addr, d.dst, d.bytes, d.sayer.map fun id => (side, id)⟩ := by
  cases side <;> rfl

/-- **Links are filed as they should be** at both sockets, and what was
ever said is a packet of the link that said it. -/
structure Filed (n : Sockets F) : Prop where
  filed : ∀ side, (n.socket side).Filed
  sent : ∀ t ∈ n.sent, ∀ side id, t.sayer = some (side, id) →
    t.src = (n.socket side).addr ∧
      ∃ link, (n.socket side).made[id]? = some link ∧ link.Sends t.dst t.bytes

theorem Filed.update (h : n.Filed) {after : Shared F × List Datagram}
    (hdoes : Shared.Does (n.socket side) after) : (n.update side after).Filed := by
  refine ⟨fun side' => ?_, fun t ht side' id hsayer => ?_⟩
  · by_cases heq : side' = side
    · rw [heq, socket_update]
      exact hdoes.filed
    · rw [socket_update_of_ne heq]
      exact h.filed side'
  · rw [sent_update] at ht
    rcases mem_append.1 ht with ht | ht
    · obtain ⟨hsrc, link, hlink, hsends⟩ := h.sent t ht side' id hsayer
      by_cases heq : side' = side
      · subst heq
        obtain ⟨link', hlink', hsame⟩ := hdoes.made id link hlink
        rw [socket_update]
        exact ⟨hsrc.trans hdoes.addr.symm, link', hlink', hsame.sends hsends⟩
      · rw [socket_update_of_ne heq]
        exact ⟨hsrc, link, hlink, hsends⟩
    · obtain ⟨d, hd, rfl⟩ := mem_map.1 ht
      obtain ⟨id', hid', heq⟩ := Option.map_eq_some_iff.1 hsayer
      obtain ⟨rfl, rfl⟩ := Prod.mk.inj heq
      rw [socket_update]
      exact ⟨hdoes.addr.symm, hdoes.sends d hd id' hid'⟩

variable [F64 F]

theorem Filed.next {event : SocketEvent} (h : n.Filed) (hnext : n.next event = some n') :
    n'.Filed := by
  have hof : ∀ {side : Side} {after : Shared F × List Datagram},
      Shared.Does (n.socket side) after → some (n.update side after) = some n' → n'.Filed := by
    intro side after hdoes heq
    cases heq
    exact h.update hdoes
  cases event with
  | connect side remote ids now => exact hof ((h.filed side).does_connect remote ids now) hnext
  | giveUp side id => exact hof ((h.filed side).does_giveUp id) hnext
  | listen side =>
    have hdoes : Shared.Does (n.socket side) ((n.socket side).listen, []) :=
      (h.filed side).does_same rfl rfl rfl
    exact hof hdoes hnext
  | accept side =>
    have hdoes : Shared.Does (n.socket side) ((n.socket side).accept, []) :=
      (h.filed side).does_same rfl rfl rfl
    exact hof hdoes hnext
  | stream side id call =>
    exact hof ((h.filed side).does_onLink id (keeps_call call)) hnext
  | tick side now =>
    simp only [Sockets.next, Option.ite_none_left_eq_some] at hnext
    exact hof ((h.filed side).does_tick now) hnext.2
  | shutdown side now => exact hof ((h.filed side).does_shutdown now) hnext
  | deliver side t now random =>
    simp only [Sockets.next, Option.ite_none_right_eq_some] at hnext
    exact hof ((h.filed side).does_handle t.bytes t.src now random) hnext.2
  | forge src dst bytes =>
    cases hnext
    have hsocket : ∀ side, socket { n with sent := n.sent ++ [⟨src, dst, bytes, none⟩] } side =
          n.socket side := by
      intro side
      cases side <;> rfl
    refine ⟨fun side => by rw [hsocket]; exact h.filed side, fun t ht side id hsayer => ?_⟩
    rcases mem_append.1 ht with ht | ht
    · rw [hsocket]
      exact h.sent t ht side id hsayer
    · rw [mem_singleton.1 ht] at hsayer
      cases hsayer

omit [F64 F] in
theorem filed_bound (near far : SocketAddr) : (bound near far : Sockets F).Filed := by
  refine ⟨fun side => ?_, fun t ht => absurd ht not_mem_nil⟩
  have hnone : ∀ s : Shared F, s.links = ∅ → s.made = [] → s.Filed := by
    intro s hlinks hmade
    refine ⟨fun key id hid => ?_, fun link hlink => ?_, fun link hlink => ?_⟩
    · rw [hlinks] at hid
      simp at hid
    · rw [hmade] at hlink
      exact absurd hlink not_mem_nil
    · rw [hmade] at hlink
      exact absurd hlink not_mem_nil
  cases side <;> exact hnone _ rfl rfl

theorem filed_of_run {near far : SocketAddr} {events : List SocketEvent}
    (hrun : (system F).Run (bound near far) events n) : n.Filed :=
  hrun.invariant (fun _ _ _ h hstep => h.next hstep) (filed_bound near far)

/-- A socket has a connection in its table, and it has not ended. -/
def Has (n : Sockets F) (side : Side) (id : ℕ) : Prop :=
  ∃ link, (n.socket side).made[id]? = some link ∧
    (n.socket side).links.lookup (link.remote, link.conn.recvId) = some id ∧
    link.conn.state ≠ .ended

omit [F64 F] in
theorem has_iff {id : ℕ} : n.Has side id ↔ (((n.socket side).made[id]?).any fun link =>
    decide ((n.socket side).links.lookup (link.remote, link.conn.recvId) = some id ∧
      link.conn.state ≠ .ended)) = true := by
  simp only [Has, Option.any_eq_true, decide_eq_true_eq]

instance (id : ℕ) : Decidable (n.Has side id) := decidable_of_iff _ has_iff.symm

/-- A connection has ended with an error. -/
def Failed (n : Sockets F) (side : Side) (id : ℕ) : Prop :=
  ∃ link, (n.socket side).made[id]? = some link ∧
    link.conn.state = .ended ∧ link.conn.error.isSome = true

/-- **The RESET that a packet is answered with ends the connection that
sent the packet**: whatever happens on the way, once it is delivered to a
socket that has the connection, the connection has ended with an error. -/
def ResetEnds (n : Sockets F) (side : Side) (id : ℕ) (t : Transit) : Prop :=
  ∀ (now : ℕ) (random : UInt16) (answered : Sockets F),
    n.next (.deliver side.other t now random) = some answered →
    ∀ (reset : Transit) (p : Packet), reset ∈ answered.sent.drop n.sent.length →
      decode reset.bytes = .ok p → p.kind = .reset →
    ∀ (events : List SocketEvent) (later : Sockets F), (system F).Run answered events later →
      later.Has side id →
    ∀ (now' : ℕ) (random' : UInt16) (after : Sockets F),
      later.next (.deliver side reset now' random') = some after → after.Failed side id

variable {packet : Packet} {src : SocketAddr} {s : Shared F}

theorem handle_of_gone (now : ℕ) (random : UInt16) (hpacket : decode datagram = .ok packet)
    (hgone : s.links.lookup (src, packet.key) = none) (hsyn : packet.kind ≠ .syn)
    (hreset : packet.kind ≠ .reset) :
    s.handle datagram src now random = (s, [⟨src, (resetFor random packet).encode, none⟩]) := by
  simp only [handle, hpacket, handlePacket, hgone]

theorem not_reset_of_mem_handle {p : Packet} {now : ℕ} {random : UInt16}
    (hpacket : decode datagram = .ok packet)
    (hgone : s.links.lookup (src, packet.key) = none)
    (hkind : packet.kind = .syn ∨ packet.kind = .reset)
    (hd : d ∈ (s.handle datagram src now random).2) (hp : decode d.bytes = .ok p) :
    p.kind ≠ .reset := by
  simp only [handle, hpacket, handlePacket, hgone] at hd
  rcases hkind with hkind | hkind
  · simp only [hkind] at hd
    split at hd
    · obtain ⟨bytes, hbytes, rfl⟩ := mem_map.1 hd
      obtain ⟨q, hq, rfl⟩ := mem_map.1 hbytes
      -- what a new connection has to say is a state packet
      rw [mem_singleton.1 hq] at hp
      simp only [decode_encode, Except.ok.injEq] at hp
      rw [← hp]
      exact fun h => PacketType.noConfusion h
    · exact absurd hd not_mem_nil
  · simp only [hkind] at hd
    exact absurd hd not_mem_nil

omit [F64 F] in
theorem other_ne (side : Side) : side.other ≠ side := by
  cases side <;> decide

/-- The two addresses of the samples. -/
def nearAddr : SocketAddr := ⟨.v4 ⟨[192, 168, 0, 1], rfl⟩, 1⟩

@[inherit_doc nearAddr]
def farAddr : SocketAddr := ⟨.v4 ⟨[192, 168, 0, 2], rfl⟩, 1⟩

/-- What was sent as the `k`-th is delivered. -/
def delivery (side : Side) (k now : ℕ) (random : UInt16) (n : Sockets ℚ) : Option SocketEvent :=
  (n.sent[k]?).map fun t => .deliver side t now random

/-- One socket asks the other for a connection, and gets it. The other
lets go of it, and its FIN does not arrive: after twenty seconds it has
forgotten the connection. Then the first sends three bytes. -/
def forgotten : List (Sockets ℚ → Option SocketEvent) :=
  [fun _ => some (.listen .far),
    fun _ => some (.connect .near farAddr [7] 0),
    delivery .far 0 0 100,
    delivery .near 1 0 0,
    fun _ => some (.accept .far),
    fun _ => some (.stream .far 0 (.drop 0)),
    fun _ => some (.tick .far (secs 20)),
    fun _ => some (.stream .near 0 (.write [1, 2, 3] (secs 20)))]

/-- The packet with the three bytes. -/
def threeBytes : Packet := ⟨.data, 8, 20000000, 0, 524288, 2, 99, [], [1, 2, 3]⟩

/-- **The RESET that a packet is answered with does not end the connection
that sent it**, whichever of the two had asked for it: it ends it exactly
where there is no RESET to be answered with. -/
theorem resetEnds_iff {near far : SocketAddr} {events : List SocketEvent} {id : ℕ}
    {link : Shared.Link F} {t : Transit}
    (hrun : (system F).Run (bound near far) events n)
    (hlink : (n.socket side).made[id]? = some link)
    (hremote : link.remote = (n.socket side.other).addr)
    (hfiled : (n.socket side).links.lookup (link.remote, link.conn.recvId) = some id)
    (hlive : link.conn.state ≠ .ended) (hserving : ∀ side, (n.socket side).stop = false)
    (ht : t ∈ n.sent) (hsayer : t.sayer = some (side, id))
    (hpacket : decode t.bytes = .ok packet)
    (hgone : (n.socket side.other).links.lookup (t.src, packet.key) = none) :
    n.ResetEnds side id t ↔ packet.kind = .syn ∨ packet.kind = .reset := by
  have hinv := filed_of_run hrun
  obtain ⟨hsrc, link', hlink', hdst, p, hbytes, hp⟩ := hinv.sent t ht side id hsayer
  obtain rfl := Option.some.inj (hlink.symm.trans hlink')
  have hdeliver : ∀ now random, n.next (.deliver side.other t now random) =
      some (n.update side.other ((n.socket side.other).handle t.bytes t.src now random)) :=
    fun now random => if_pos ⟨ht, hdst.trans hremote, by simp [hserving]⟩
  constructor
  · intro hends
    by_contra hkind
    obtain ⟨hsyn, hreset⟩ := not_or.1 hkind
    have hid : packet.connectionId = link.conn.sendId := by
      rw [hbytes, decode_encode] at hpacket
      cases hpacket
      exact hp.trans (if_neg hsyn)
    have hhandle := handle_of_gone (s := n.socket side.other) 0 0 hpacket hgone hsyn hreset
    have hnear : ∀ after : Shared F × List Datagram,
        (n.update side.other after).socket side = n.socket side :=
      fun after => socket_update_of_ne (other_ne side).symm after
    let reset : Transit :=
      ⟨(n.socket side.other).addr, t.src, (Shared.resetFor 0 packet).encode, none⟩
    have hsent : ((n.update side.other
        ((n.socket side.other).handle t.bytes t.src 0 0)).sent) = n.sent ++ [reset] := by
      rw [sent_update, hhandle]
      rfl
    have hreset := hends 0 0 _ (hdeliver 0 0) reset (Shared.resetFor 0 packet)
      (by rw [hsent, drop_left]; exact mem_singleton.2 rfl)
      (decode_encode _) rfl [] _ .nil (by
        rw [Has, hnear]
        exact ⟨link, hlink, hfiled, hlive⟩) 0 0 _ (if_pos ⟨by rw [hsent]; simp, by
          rw [hnear]
          exact ⟨hsrc, by simp [hserving]⟩⟩)
    obtain ⟨link', hlink', hended, -⟩ := hreset
    rw [socket_update, hnear] at hlink'
    have hsame := (hinv.filed side).made_handle_reset reset.src 0 0 hlink
      (decode_encode (Shared.resetFor 0 packet)) rfl (by
        rw [show (Shared.resetFor 0 packet).connectionId = _ from hid]
        exact (hinv.filed side).ids link (mem_of_getElem? hlink))
    obtain rfl := Option.some.inj (hsame.symm.trans hlink')
    exact hlive hended
  · intro hkind now random answered hanswered reset p hreset hdecode hp
    obtain rfl := Option.some.inj ((hdeliver now random).symm.trans hanswered)
    rw [sent_update, drop_left] at hreset
    obtain ⟨d, hd, rfl⟩ := mem_map.1 hreset
    exact absurd hp (not_reset_of_mem_handle hpacket hgone hkind hd hdecode)

theorem resetEnds_iff_sample :
    ∃ (events : List SocketEvent) (n : Sockets ℚ) (t : Transit),
      (system ℚ).Run (bound nearAddr farAddr) events n ∧ t ∈ n.sent ∧
      t.bytes = threeBytes.encode ∧ ¬ n.ResetEnds .near 0 t := by
  -- the three bytes are for a connection that the other socket does not have
  have hplay : ∃ n ∈ LTS.play Sockets.next (bound (F := ℚ) nearAddr farAddr) forgotten,
      ∃ t ∈ n.sent[5]?, ∃ link ∈ (n.socket .near).made[0]?, link.remote = n.far.addr ∧
        n.near.links.lookup (link.remote, link.conn.recvId) = some 0 ∧ link.conn.state ≠ .ended ∧
        n.near.stop = false ∧ n.far.stop = false ∧ t.sayer = some (.near, 0) ∧
        t.bytes = threeBytes.encode ∧ n.far.links.lookup (t.src, threeBytes.key) = none := by
    decide +kernel
  obtain ⟨n, hplay, t, ht, link, hlink, hremote, hfiled, hlive, hnear, hfar, hsayer, hbytes,
    hgone⟩ := hplay
  obtain ⟨events, hrun⟩ := LTS.run_of_play (L := system ℚ) (fun _ _ _ h => h) hplay
  have hpacket : decode t.bytes = .ok threeBytes := by
    rw [hbytes, decode_encode]
    rfl
  have hiff := resetEnds_iff hrun hlink hremote hfiled hlive
    (fun side => by cases side <;> assumption) (mem_of_getElem? ht) hsayer hpacket hgone
  refine ⟨events, n, t, hrun, mem_of_getElem? ht, hbytes, fun hends => ?_⟩
  exact absurd (hiff.1 hends) (by decide)

/-- The RESET that the three bytes are answered with. -/
def answer : Packet := ⟨.reset, 8, 0, 0, 0, 5, 2, [], []⟩

/-- **A connection that the RESET for it does not reach**: the socket that
asked for the connection sends on it when the other has forgotten it, is
told so, and still has it. -/
theorem reset_not_matched :
    ∃ (events : List SocketEvent) (n answered after : Sockets ℚ) (t reset : Transit),
      (system ℚ).Run (bound nearAddr farAddr) events n ∧
      n.Has .near 0 ∧ t ∈ n.sent ∧ t.sayer = some (.near, 0) ∧ n.far.links.keys = [] ∧
      n.next (.deliver .far t (secs 20) 5) = some answered ∧
      reset ∈ answered.sent.drop n.sent.length ∧ decode reset.bytes = .ok answer ∧
      answered.next (.deliver .near reset (secs 20) 0) = some after ∧ after.Has .near 0 ∧
      ¬ after.Failed .near 0 := by
  -- the three bytes are answered with a RESET, and the connection has not ended when it comes
  have hplay : ∃ n ∈ LTS.play Sockets.next (bound (F := ℚ) nearAddr farAddr) forgotten,
      n.Has .near 0 ∧ n.far.links.keys = [] ∧ ∃ t ∈ n.sent[5]?, t.sayer = some (.near, 0) ∧
      ∃ answered ∈ n.next (.deliver .far t (secs 20) 5),
      ∃ reset ∈ answered.sent.drop n.sent.length, reset.bytes = answer.encode ∧
      ∃ after ∈ answered.next (.deliver .near reset (secs 20) 0), after.Has .near 0 := by
    decide +kernel
  obtain ⟨n, hplay, hnear, hfar, t, ht, hsayer, answered, hanswered, reset, hreset, hbytes, after,
    hafter, hhas⟩ := hplay
  obtain ⟨events, hrun⟩ := LTS.run_of_play (L := system ℚ) (fun _ _ _ h => h) hplay
  refine ⟨events, n, answered, after, t, reset, hrun, hnear, mem_of_getElem? ht, hsayer, hfar,
    hanswered, hreset, ?_, hafter, hhas, ?_⟩
  · rw [hbytes, decode_encode]
    rfl
  · rintro ⟨link, hlink, hended, -⟩
    obtain ⟨link', hlink', -, hlive⟩ := hhas
    obtain rfl := Option.some.inj (hlink.symm.trans hlink')
    exact hlive hended

end Sockets

end BitTorrent.Utp
