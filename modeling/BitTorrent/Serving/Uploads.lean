import BitTorrent.Disk.ReadBack
import BitTorrent.Serving.Announced

/-!
# The blocks that are sent

Between a request and its block the thread of a connection looks at the choker, at the pieces and
at the disk, each at a moment of its own.
-/

namespace BitTorrent.Serving

open List

variable {n k : ℕ} {es : List ServeEvent} {e : ServeEvent} {m m' : HaveMap}

/-- The bytes of a block. -/
def blockLen : Message → ℕ
  | .piece _ _ block => block.length
  | _ => 0

/-- Whether a message is a block. -/
def isBlock : Message → Bool
  | .piece _ _ _ => true
  | _ => false

/-- The bytes of the blocks among messages. -/
def blockBytes (out : List Message) : ℕ := (out.map blockLen).sum

theorem blockBytes_eq_zero {out : List Message} (h : ∀ msg ∈ out, isBlock msg = false) :
    blockBytes out = 0 := by
  refine sum_eq_zero fun x hx => ?_
  obtain ⟨msg, hmsg, rfl⟩ := mem_map.1 hx
  have hmsg := h msg hmsg
  cases msg with
  | piece index start block => cases hmsg
  | _ => rfl

/-- The bytes of the blocks that an event sends. -/
def ServeEvent.blockBytes : ServeEvent → ℕ
  | .acts _ _ sent => Serving.blockBytes sent
  | _ => 0

/-- **The bytes of the blocks sent** over a run, to all peers. -/
def bytesSent (es : List ServeEvent) : ℕ := (es.map ServeEvent.blockBytes).sum

/-- What is sent and not counted. -/
def Phase.uncounted : Phase → ℕ
  | .counting _ length => length.toNat
  | _ => 0

/-- What is sent and not counted, over all connections. -/
def Seeding.uncounted (s : Seeding) : ℕ := (s.conns.map fun c => c.phase.uncounted).sum

theorem sum_map_set {α : Type*} (f : α → ℕ) {xs : List α} {x y : α}
    (h : xs[k]? = some x) : ((xs.set k y).map f).sum + f x = (xs.map f).sum + f y := by
  induction xs generalizing k with
  | nil => cases h
  | cons z xs ih =>
    cases k with
    | zero =>
      obtain rfl := Option.some_inj.1 h
      simp only [set_cons_zero, map_cons, sum_cons]
      omega
    | succ k =>
      have := ih (k := k) h
      simp only [set_cons_succ, map_cons, sum_cons]
      omega

theorem handle_cases (w : World) (sv : Serving) (msg : Message) (answer : Option Message)
    {r : World × Phase × List Message} (hr : handle w sv msg answer = r) :
    r.1.uploaded = w.uploaded ∧ (∀ msg' ∈ r.2.2, isBlock msg' = false) ∧
    (r.2.1 = .idle sv ∨ r.2.1 = .granting sv ∨ r.2.1 = .closed ∨
      ∃ index start length, msg = .request index start length ∧
        (w.choker.isUnchoked sv.chokerId = true ∨ index ∈ sv.allowedFast) ∧
        r.2.1 = .asked sv index start length ∧ r.2.2 = []) := by
  have hother : ∀ msg' ∈ answer.toList.filter isOtherAnswer, isBlock msg' = false := by
    intro msg' hmsg
    have hmsg := (mem_filter.1 hmsg).2
    cases msg' <;> first | rfl | cases hmsg
  subst hr
  unfold handle
  split
  · exact ⟨rfl, forall_mem_nil _, .inr (.inl rfl)⟩
  · exact ⟨rfl, forall_mem_nil _, .inl rfl⟩
  · rename_i index start length
    split
    · refine ⟨rfl, fun msg' hmsg => ?_, .inl rfl⟩
      dsimp only at hmsg
      split at hmsg
      · obtain rfl := mem_singleton.1 hmsg
        rfl
      · cases hmsg
    · rename_i hmay
      split
      · exact ⟨rfl, forall_mem_nil _, .inr (.inr (.inl rfl))⟩
      · refine ⟨rfl, forall_mem_nil _, .inr (.inr (.inr ⟨index, start, length, rfl, ?_, rfl, rfl⟩))⟩
        simpa [or_iff_not_imp_left] using hmay
  · exact ⟨rfl, hother, .inl rfl⟩
  · exact ⟨rfl, hother, .inl rfl⟩
  · exact ⟨rfl, forall_mem_nil _, .inl rfl⟩

theorem isBlock_openingMessages {peer : Peer} (advertised : List Bool) (fast : List UInt32) :
    ∀ msg ∈ openingMessages peer advertised fast, isBlock msg = false := by
  intro msg hmsg
  rcases mem_cons.1 hmsg with rfl | hmsg
  · unfold firstMessage
    repeat' split
    all_goals rfl
  · rcases mem_append.1 hmsg with hmsg | hmsg
    · obtain ⟨piece, -, rfl⟩ := mem_map.1 hmsg
      rfl
    · obtain ⟨payload, -, rfl⟩ := mem_map.1 hmsg
      rfl

theorem isBlock_haveMessages (now advertised : List Bool) :
    ∀ msg ∈ haveMessages now advertised, isBlock msg = false := by
  intro msg hmsg
  obtain ⟨i, -, rfl⟩ := mem_map.1 hmsg
  rfl

/-- Nothing is heard from a peer, and nothing written to it. -/
def Quiet (k : ℕ) (e : ServeEvent) : Prop :=
  (∀ msg answer out, e ≠ .acts k (.hears msg answer) out) ∧ e.sentTo k = []

/-- A block lies in a piece that is there. -/
def Within (sh : Shared) (m : HaveMap) (index start length : UInt32) : Prop :=
  m.Has index.toNat ∧ start.toNat + length.toNat ≤ sh.pieceLen index

theorem Within.mono {sh : Shared} {index start length : UInt32} (h : Within sh m index start length)
    (hmono : ∀ i, m.Has i → m'.Has i) : Within sh m' index start length :=
  ⟨hmono _ h.1, h.2⟩

section Seen

variable [Digests]

/-- **The last thing heard from a peer is a request**, which came when the
peer had a slot or for a piece of its allowed fast set. -/
def Asked (sh : Shared) (s₀ : Seeding) (k : ℕ) (es : List ServeEvent) (sv : Serving)
    (index start length : UInt32) : Prop :=
  ∃ es₁ s₁ c answer es₂,
    es = es₁ ++ [.acts k (.hears (.request index start length) answer) []] ++ es₂ ∧
    (seeding sh).Run s₀ es₁ s₁ ∧ s₁.conns[k]? = some c ∧ c.phase = .idle sv ∧
    (s₁.world.choker.isUnchoked sv.chokerId = true ∨ index ∈ sv.allowedFast) ∧
    ∀ e ∈ es₂, Quiet k e

/-- **The block of a request has been read** from the disk, after the request
came. -/
def Loaded (sh : Shared) (s₀ : Seeding) (k : ℕ) (es : List ServeEvent) (sv : Serving)
    (index start length : UInt32) (block : List UInt8) : Prop :=
  ∃ es₁ s₁ es₂, es = es₁ ++ [.acts k .reads []] ++ es₂ ∧ (seeding sh).Run s₀ es₁ s₁ ∧
    Asked sh s₀ k es₁ sv index start length ∧ block.length = length.toNat ∧
    Shows sh.spans s₁.world.fs (index.toNat * sh.pieceLength + start.toNat) block ∧
    ∀ e ∈ es₂, Quiet k e

/-- What the thread of a connection has seen on its way to a block. -/
def Warranted (sh : Shared) (s₀ : Seeding) (k : ℕ) (es : List ServeEvent) (m : HaveMap) :
    Phase → Prop
  | .asked sv index start length => Asked sh s₀ k es sv index start length
  | .bounded sv index start length =>
    Asked sh s₀ k es sv index start length ∧ Within sh m index start length
  | .holding sv index start length block =>
    Loaded sh s₀ k es sv index start length block ∧ Within sh m index start length
  | _ => True

variable {sh : Shared} {s₀ s t : Seeding} {w w' : World} {peer : Peer} {phase phase' : Phase}
  {a : Act} {out : List Message} {sv : Serving} {index start length : UInt32}
  {block : List UInt8}

theorem Asked.snoc (h : Asked sh s₀ k es sv index start length) (he : Quiet k e) :
    Asked sh s₀ k (es ++ [e]) sv index start length := by
  obtain ⟨es₁, s₁, c, answer, es₂, rfl, hrun, hc, hphase, hmay, hquiet⟩ := h
  exact ⟨es₁, s₁, c, answer, es₂ ++ [e], by rw [append_assoc _ es₂], hrun, hc, hphase, hmay,
    forall_mem_append.2 ⟨hquiet, forall_mem_singleton.2 he⟩⟩

theorem Loaded.snoc (h : Loaded sh s₀ k es sv index start length block) (he : Quiet k e) :
    Loaded sh s₀ k (es ++ [e]) sv index start length block := by
  obtain ⟨es₁, s₁, es₂, rfl, hrun, hasked, hlength, hshows, hquiet⟩ := h
  exact ⟨es₁, s₁, es₂ ++ [e], by rw [append_assoc _ es₂], hrun, hasked, hlength, hshows,
    forall_mem_append.2 ⟨hquiet, forall_mem_singleton.2 he⟩⟩

theorem Warranted.other (h : Warranted sh s₀ k es m phase) (he : Quiet k e)
    (hmono : ∀ i, m.Has i → m'.Has i) : Warranted sh s₀ k (es ++ [e]) m' phase := by
  cases phase with
  | asked sv index start length => exact Asked.snoc h he
  | bounded | holding => exact ⟨h.1.snoc he, h.2.mono hmono⟩
  | _ => trivial

theorem Does.blocks (h : Does sh peer w phase a w' phase' out) :
    (∀ msg ∈ out, isBlock msg = false) ∨ ∃ sv index start length block,
      phase = .holding sv index start length block ∧ w' = w ∧ phase' = .counting sv length ∧
      out = [.piece index start block] := by
  cases h with
  | beginFails hfree hfast =>
    exact .inl fun msg hmsg => isBlock_openingMessages _ _ msg (mem_of_mem_take hmsg)
  | begins hfree hfast => exact .inl (isBlock_openingMessages _ _)
  | announceFails hfree =>
    exact .inl fun msg hmsg => isBlock_haveMessages _ _ msg (mem_of_mem_take hmsg)
  | announces hfree => exact .inl (isBlock_haveMessages _ _)
  | tells hsent => rcases hsent with rfl | rfl | rfl <;> exact .inl (by simp [isBlock])
  | rejects hsent => rcases hsent with rfl | rfl <;> exact .inl (by simp [isBlock])
  | @hears sv msg answer r hr => exact .inl (handle_cases w sv msg answer hr).2.1
  | sends => exact .inr ⟨_, _, _, _, _, rfl, rfl, rfl, rfl⟩
  | _ => exact .inl (forall_mem_nil _)

theorem Does.uploaded (h : Does sh peer w phase a w' phase' out)
    (hblock : ∀ sv index start length block, phase = .holding sv index start length block →
      block.length = length.toNat) :
    w'.uploaded + phase'.uncounted = w.uploaded + phase.uncounted + blockBytes out := by
  rcases h.blocks with hnone | ⟨sv, index, start, length, block, hphase, rfl, rfl, rfl⟩
  · rw [blockBytes_eq_zero hnone]
    cases h with
    | @hears sv msg answer r hr =>
      obtain ⟨huploaded, -, hphase⟩ := handle_cases w sv msg answer hr
      have hzero : r.2.1.uncounted = 0 := by
        rcases hphase with h | h | h | ⟨index, start, length, -, -, h, -⟩ <;> rw [h] <;> rfl
      rw [huploaded, hzero]
      rfl
    | sends => cases hnone _ (mem_singleton.2 rfl)
    | fails hfail =>
      have hzero : phase.uncounted = 0 := by
        cases phase with
        | counting sv length => cases hfail
        | _ => rfl
      rw [hzero]
      cases phase.serving <;> rfl
    | _ => rfl
  · have hlength := hblock sv index start length block hphase
    rw [hphase]
    simp only [Phase.uncounted, blockBytes, map_cons, map_nil, blockLen, sum_cons, sum_nil]
    omega

theorem Warranted.act {c : Conn} (hlaid : Laid sh.spans) (hrun : (seeding sh).Run s₀ es s)
    (hc : s.conns[k]? = some c) (h : Warranted sh s₀ k es s.world.haveMap c.phase)
    (hdoes : Does sh c.peer s.world c.phase a w' phase' out) :
    Warranted sh s₀ k (es ++ [.acts k a out]) s.world.haveMap phase' := by
  have hquiet : ∀ b, (∀ msg answer, b ≠ .hears msg answer) → Quiet k (.acts k b []) := by
    refine fun b hb => ⟨fun msg answer out heq => ?_, if_pos rfl⟩
    cases heq
    exact hb msg answer rfl
  generalize hphase : c.phase = phase at h hdoes
  cases hdoes with
  | @hears sv msg answer r hr =>
    obtain ⟨-, -, h' | h' | h' | ⟨index, start, length, rfl, hmay, h', hout⟩⟩ :=
      handle_cases s.world sv msg answer hr
    · rw [h']
      trivial
    · rw [h']
      trivial
    · rw [h']
      trivial
    · rw [h', hout]
      exact ⟨es, s, c, answer, [], by rw [append_nil], hrun, hc, hphase, hmay, forall_mem_nil _⟩
  | bounds hhas hle => exact ⟨Asked.snoc h (hquiet _ nofun), hhas, hle⟩
  | @reads sv index start length block hread =>
    obtain ⟨hlength, hshows⟩ := (readAtGlobalOffset_eq_ok_iff hlaid).1 hread
    exact ⟨⟨es, s, [], by rw [append_nil], hrun, h.1, hlength, hshows, forall_mem_nil _⟩, h.2⟩
  | _ => trivial

/-- **The invariant of a run**: what each thread has seen, and the account. -/
structure UploadInv (sh : Shared) (s₀ : Seeding) (es : List ServeEvent) (s : Seeding) : Prop where
  run : (seeding sh).Run s₀ es s
  conns : ∀ k c, s.conns[k]? = some c → Warranted sh s₀ k es s.world.haveMap c.phase
  uploaded : s.world.uploaded + s.uncounted = bytesSent es

theorem uploaded_of_ne (hstep : (seeding sh).step s e t) (he : ∀ k a out, e ≠ .acts k a out) :
    t.world.uploaded = s.world.uploaded ∧ t.uncounted = s.uncounted ∧ e.blockBytes = 0 := by
  cases e with
  | acts k a out => exact absurd rfl (he k a out)
  | connects peer =>
    obtain rfl := hstep
    exact ⟨rfl, by simp [Seeding.uncounted, Phase.uncounted], rfl⟩
  | marks | releases =>
    obtain ⟨m, -, rfl⟩ := hstep
    exact ⟨rfl, rfl, rfl⟩
  | bumps index =>
    obtain ⟨-, m, -, rfl⟩ := hstep
    exact ⟨rfl, rfl, rfl⟩
  | rechokes | downloads | writesDisk =>
    obtain rfl := hstep
    exact ⟨rfl, rfl, rfl⟩

theorem uploaded_of_acts (hstep : (seeding sh).step s (.acts k a out) t)
    (hconns : ∀ c, s.conns[k]? = some c → Warranted sh s₀ k es s.world.haveMap c.phase) :
    t.world.uploaded + t.uncounted = s.world.uploaded + s.uncounted + blockBytes out := by
  obtain ⟨c, w, phase, hc, hact, rfl⟩ := hstep
  have hone := (Does.of_act hact).uploaded fun sv index start length block hphase => by
    have hwarranted := hconns c hc
    rw [hphase] at hwarranted
    obtain ⟨es₁, s₁, es₂, -, -, -, hlength, -⟩ := hwarranted.1
    exact hlength
  have hsum : Seeding.uncounted ⟨w, s.conns.set k ⟨c.peer, phase⟩⟩ + c.phase.uncounted =
      s.uncounted + phase.uncounted :=
    sum_map_set (fun c => c.phase.uncounted) (y := ⟨c.peer, phase⟩) hc
  dsimp only
  omega

variable {slots : ℕ} {fs : FileSystem}

theorem UploadInv.step (hlaid : Laid sh.spans) (h : UploadInv sh (.start n slots fs) es s)
    (hstep : (seeding sh).step s e t) : UploadInv sh (.start n slots fs) (es ++ [e]) t := by
  obtain ⟨-, hmono⟩ := (SeedInv.of_run h.run).map.step hstep
  refine ⟨h.run.snoc hstep, fun k c' hc' => ?_, ?_⟩
  · rcases conn_cases hstep hc' with ⟨hc, hother⟩ | ⟨rfl, peer, rfl, rfl⟩ |
      ⟨c, a, out, rfl, hc, -, hdoes⟩
    · exact (h.conns k c' hc).other ⟨fun _ _ _ => hother _ _, sentTo_of_ne hother⟩ hmono
    · trivial
    · rw [hdoes.haveMap_eq]
      exact (h.conns k c hc).act hlaid h.run hc hdoes
  · rw [bytesSent, map_append, sum_append, map_singleton, sum_singleton, ← bytesSent, ← h.uploaded]
    by_cases he : ∃ k a out, e = .acts k a out
    · obtain ⟨k, a, out, rfl⟩ := he
      exact uploaded_of_acts hstep (h.conns k)
    · obtain ⟨huploaded, huncounted, hzero⟩ := uploaded_of_ne hstep fun k a out heq =>
        he ⟨k, a, out, heq⟩
      rw [huploaded, huncounted, hzero]
      rfl

theorem UploadInv.of_run (hlaid : Laid sh.spans)
    (hrun : (seeding sh).Run (.start n slots fs) es s) : UploadInv sh (.start n slots fs) es s := by
  refine LTS.Run.history ?_ hrun ⟨.nil, fun _ _ hc => (by cases hc), rfl⟩
  exact fun _ _ _ _ h hstep => h.step hlaid hstep

/-- **The blocks that are sent**, over every interleaving: each answers a
request that came when the peer had a slot or for a piece of its allowed
fast set, lies in a piece that is there, and is what was on the disk when it
was read. What is counted and what some thread has sent and not counted yet
make up the bytes of all blocks sent. -/
theorem blocks_sent (htable : IsTable sh.spans)
    (hrun : (seeding sh).Run (.start n slots fs) es s) :
    (∀ k a out t index start block, (seeding sh).step s (.acts k a out) t →
      .piece index start block ∈ out → ∃ sv length,
        Loaded sh (.start n slots fs) k es sv index start length block ∧
        Within sh s.world.haveMap index start length) ∧
    s.world.uploaded + s.uncounted = bytesSent es ∧
    ((∀ c ∈ s.conns, ∀ sv length, c.phase ≠ .counting sv length) →
      s.world.uploaded = bytesSent es) := by
  have hinv := UploadInv.of_run htable.laid hrun
  refine ⟨fun k a out t index start block hstep hpiece => ?_, hinv.uploaded, fun hnone => ?_⟩
  · obtain ⟨c, c', hc, -, -, hdoes⟩ := acts_cases hstep
    have hwarranted := hinv.conns k c hc
    rcases hdoes.blocks with hout | ⟨sv, index', start', length, block', hphase, -, -, rfl⟩
    · cases hout _ hpiece
    · cases mem_singleton.1 hpiece
      rw [hphase] at hwarranted
      exact ⟨sv, length, hwarranted⟩
  · have hzero : s.uncounted = 0 := by
      refine sum_eq_zero fun x hx => ?_
      obtain ⟨c, hc, rfl⟩ := mem_map.1 hx
      have hphase := hnone c hc
      generalize c.phase = phase at hphase
      cases phase with
      | counting sv length => exact absurd rfl (hphase sv length)
      | _ => rfl
    rw [← hinv.uploaded, hzero]
    rfl

end Seen

/-- A torrent of one piece of four bytes. -/
def fourBytes : Shared := ⟨.replicate 20 0, buildFileSpans [] [([[97]], 4)], 4, 4, none⟩

/-- A disk that has its file. -/
def fourBytesDisk : FileSystem := fun path =>
  if path = [[97]] then some (.file [5, 6, 7, 8]) else none

/-- A peer has a slot, and a block of it is read. -/
def fourBytesHeld : Seeding :=
  ⟨⟨⟨[true], 1, none⟩, (((Choker.new 1).register.2.setInterested 0 true).grantIfFree 0).2,
    fourBytesDisk, 0⟩, [⟨plainPeer, .holding ⟨0, false, ∅, false, 1, [true]⟩ 0 1 2 [6, 7]⟩]⟩

theorem blocks_sent_sample : ∃ es s t,
    (@seeding .zero fourBytes).Run (.start 1 1 fourBytesDisk) es s ∧
    (@seeding .zero fourBytes).step s (.acts 0 .sends [.piece 0 1 [6, 7]]) t ∧
    ∃ sv length, @Loaded .zero fourBytes (.start 1 1 fourBytesDisk) 0 es sv 0 1 length [6, 7] ∧
      Within fourBytes s.world.haveMap 0 1 length := by
  let _ : Digests := .zero
  have hrun : (seeding fourBytes).Run (.start 1 1 fourBytesDisk)
      ([] ++ [.marks 0] ++ [.bumps 0] ++ [.releases] ++ [.connects plainPeer] ++
        [.acts 0 .readsVersion []] ++ [.acts 0 (.begins 0 1) [.bitfield [128]]] ++
        [.acts 0 (.hears .interested none) []] ++ [.acts 0 .grants []] ++
        [.acts 0 (.hears (.request 0 1 2) none) []] ++ [.acts 0 .bounds []] ++
        [.acts 0 .reads []]) fourBytesHeld :=
    .snoc (.snoc (.snoc (.snoc (.snoc (.snoc (.snoc (.snoc (.snoc (.snoc (.snoc .nil
      ⟨_, rfl, rfl⟩) ⟨rfl, _, rfl, rfl⟩) ⟨_, rfl, rfl⟩) rfl) ⟨_, _, _, rfl, rfl, rfl⟩)
      ⟨_, _, _, rfl, rfl, rfl⟩) ⟨_, _, _, rfl, rfl, rfl⟩) ⟨_, _, _, rfl, rfl, rfl⟩)
      ⟨_, _, _, rfl, rfl, rfl⟩) ⟨_, _, _, rfl, rfl, rfl⟩) ⟨_, _, _, rfl, rfl, rfl⟩
  have hstep : (seeding fourBytes).step fourBytesHeld (.acts 0 .sends [.piece 0 1 [6, 7]]) _ :=
    ⟨_, _, _, rfl, rfl, rfl⟩
  have htable : IsTable fourBytes.spans := .inl ⟨_, _, _, rfl⟩
  exact ⟨_, _, _, hrun, hstep, (blocks_sent htable hrun).1 0 .sends _ _ 0 1 [6, 7] hstep
    (mem_singleton.2 rfl)⟩

end BitTorrent.Serving
