import BitTorrent.Serving.Bitfield

/-!
# What a peer is told of the pieces

Pieces are added under a lock, but the version of the have-map is read without it.
-/

namespace BitTorrent.Serving

open List Option

variable {n : ℕ} {es : List ServeEvent} {e : ServeEvent} {m m' : HaveMap} {i k : ℕ}
  {peer : Peer} {sent out : List Message}

/-- The piece that an event counts in the version. -/
def ServeEvent.added : ServeEvent → Option ℕ
  | .bumps index => some index
  | _ => none

/-- The pieces the version counts, in their order. -/
def added (es : List ServeEvent) : List ℕ := es.filterMap ServeEvent.added

theorem added_snoc : added (es ++ [e]) = added es ++ e.added.toList := by
  cases h : e.added <;> simp [added, h]

/-- A piece is there. -/
def HaveMap.Has (m : HaveMap) (i : ℕ) : Prop := m.bits.getD i false = true

/-- **A piece has been added**: `set` has returned. -/
def HaveMap.Added (m : HaveMap) (i : ℕ) : Prop :=
  m.Has i ∧ m.writer ≠ some (.marked i) ∧ m.writer ≠ some (.bumped i)

/-- **The version counts the pieces there are**, but for one that is being
added. -/
structure MapInv (n : ℕ) (es : List ServeEvent) (m : HaveMap) : Prop where
  length_eq : m.bits.length = n
  version_eq : m.version = (added es).length
  has_iff : ∀ i, m.Has i ↔ i ∈ added es ∨ m.writer = some (.marked i)
  small : ∀ i, m.Has i → i < 2 ^ 32

theorem MapInv.lt_length (h : MapInv n es m) (hi : m.Has i) : i < n := by
  rw [← h.length_eq]
  by_contra hge
  rw [HaveMap.Has, getD_eq_getElem?_getD, getElem?_eq_none (Nat.not_lt.1 hge)] at hi
  cases hi

theorem MapInv.other (h : MapInv n es m) (he : e.added = none) : MapInv n (es ++ [e]) m := by
  have hadded : added (es ++ [e]) = added es := by
    rw [added_snoc, he]
    exact append_nil _
  exact ⟨h.length_eq, by rw [hadded]; exact h.version_eq, by rw [hadded]; exact h.has_iff, h.small⟩

variable {index : UInt32}

theorem mark_cases (h : m.mark index = some m') : m.writer = none ∧ (m' = m ∨ (m' = { m with
        bits := m.bits.set index.toNat true, writer := some (.marked index.toNat) } ∧
      index.toNat < m.bits.length)) := by
  unfold HaveMap.mark at h
  split at h
  · cases h
  · rename_i hfree
    refine ⟨hfree, ?_⟩
    split at h
    · rename_i hnew
      cases h
      exact .inr ⟨rfl, (List.getElem?_eq_some_iff.1 hnew).1⟩
    · exact .inl (some_inj.1 h).symm

theorem has_set {index : ℕ} (hindex : index < m.bits.length) {writer : Option Writer} :
    (HaveMap.mk (m.bits.set index true) m.version writer).Has i ↔ index = i ∨ m.Has i := by
  unfold HaveMap.Has
  rw [getD_eq_getElem?_getD, getElem?_set, getD_eq_getElem?_getD]
  by_cases heq : index = i
  · subst heq
    simp [hindex]
  · simp [heq]

theorem MapInv.mark (h : MapInv n es m) (hmark : m.mark index = some m') :
    MapInv n (es ++ [.marks index]) m' := by
  obtain ⟨hfree, rfl | ⟨rfl, hindex⟩⟩ := mark_cases hmark
  · exact h.other rfl
  · have hother : MapInv n (es ++ [.marks index]) m := h.other rfl
    refine ⟨(length_set ..).trans h.length_eq, hother.version_eq, fun i => ?_, fun i hi => ?_⟩
    · rw [has_set hindex, hother.has_iff, hfree]
      simp [or_comm]
    · rcases (has_set hindex).1 hi with rfl | hi
      · exact index.toNat_lt
      · exact h.small i hi

theorem MapInv.bump (h : MapInv n es m) (hwriter : m.writer = some (.marked i))
    (hbump : m.bump = some m') : MapInv n (es ++ [.bumps i]) m' := by
  rw [HaveMap.bump, hwriter] at hbump
  cases hbump
  have hadded : added (es ++ [.bumps i]) = added es ++ [i] := added_snoc
  refine ⟨h.length_eq, ?_, fun j => (h.has_iff j).trans ?_, h.small⟩
  · rw [hadded, length_append, ← h.version_eq]
    rfl
  · rw [hadded, hwriter]
    simp [eq_comm]

theorem MapInv.release (h : MapInv n es m) (hrelease : m.release = some m') :
    MapInv n (es ++ [.releases]) m' := by
  unfold HaveMap.release at hrelease
  split at hrelease
  · rename_i j hwriter
    cases hrelease
    have hother : MapInv n (es ++ [.releases]) m := h.other rfl
    refine ⟨h.length_eq, hother.version_eq, fun i => (hother.has_iff i).trans ?_, h.small⟩
    simp [hwriter]
  · cases hrelease

/-- A message that says nothing about pieces. -/
def isPlain : Message → Bool
  | .bitfield _ => false
  | .haveAll => false
  | .haveNone => false
  | .haveOne _ => false
  | _ => true

variable {msg : Message}

theorem tells_of_isPlain (h : isPlain msg = true) (n i : ℕ) : tells n i msg = false := by
  cases msg with
  | bitfield | haveAll | haveNone | haveOne => cases h
  | _ => rfl

theorem follows_of_isPlain (h : isPlain msg = true) (n : ℕ) : Follows n msg := by
  cases msg with
  | bitfield | haveAll | haveNone | haveOne => cases h
  | _ => trivial

/-- **What a peer has been sent is true**: it has been told once, at most, of
pieces that are there, and of no others. -/
structure Truthful (n : ℕ) (m : HaveMap) (sent : List Message) : Prop where
  opened : Opened n sent
  told : ∀ i, sent.countP (tells n i) ≤ (m.bits.getD i false).toNat

theorem Opened.append (h : Opened n sent) (hbegun : sent ≠ [])
    (hout : ∀ msg ∈ out, Follows n msg) : Opened n (sent ++ out) := by
  rcases h with rfl | ⟨fast, advertised, rest, rfl, hlength, hrest⟩
  · exact absurd rfl hbegun
  · refine .inr ⟨fast, advertised, rest ++ out, rfl, hlength, fun msg hmsg => ?_⟩
    rcases mem_append.1 hmsg with hmsg | hmsg
    · exact hrest msg hmsg
    · exact hout msg hmsg

theorem countP_plain (hplain : ∀ msg ∈ out, isPlain msg = true) (n i : ℕ) :
    out.countP (tells n i) = 0 :=
  countP_eq_zero.2 fun msg hmsg => by
    rw [tells_of_isPlain (hplain msg hmsg)]
    exact Bool.false_ne_true

theorem any_tells_iff : sent.any (tells n i) = true ↔ 0 < sent.countP (tells n i) := by
  rw [List.any_eq_true, countP_pos_iff]

theorem Truthful.plain (h : Truthful n m sent) (hbegun : sent ≠ [] ∨ out = [])
    (hplain : ∀ msg ∈ out, isPlain msg = true) : Truthful n m (sent ++ out) := by
  rcases hbegun with hbegun | rfl
  · refine ⟨h.opened.append hbegun fun msg hmsg => follows_of_isPlain (hplain msg hmsg) n,
      fun i => ?_⟩
    rw [countP_append, countP_plain hplain]
    exact h.told i
  · rwa [append_nil]

theorem countP_openingMessages (peer : Peer) (advertised : List Bool) (fast : List UInt32)
    (written i : ℕ) :
    ((openingMessages peer advertised fast).take written).countP (tells advertised.length i) =
      (decide (0 < written) && advertised.getD i false).toNat := by
  cases written with
  | zero => simp
  | succ written =>
    have hplain : ∀ msg ∈ (fast.map Message.allowedFast ++
        peer.handshake.toList.map (Message.extended 0)).take written, isPlain msg = true := by
      intro msg hmsg
      have hmsg := mem_of_mem_take hmsg
      rcases mem_append.1 hmsg with hmsg | hmsg
      · obtain ⟨piece, -, rfl⟩ := List.mem_map.1 hmsg
        rfl
      · obtain ⟨payload, -, rfl⟩ := List.mem_map.1 hmsg
        rfl
    rw [openingMessages, take_succ_cons, countP_cons, tells_firstMessage, countP_plain hplain]
    cases advertised.getD i false <;> simp

theorem opened_openingMessages (peer : Peer) (advertised : List Bool) (fast : List UInt32)
    (written : ℕ) :
    Opened advertised.length ((openingMessages peer advertised fast).take written) := by
  cases written with
  | zero => exact .inl rfl
  | succ written =>
    refine .inr ⟨peer.fast, advertised, _, rfl, rfl, fun msg hmsg => ?_⟩
    have hmsg := mem_of_mem_take hmsg
    rcases mem_append.1 hmsg with hmsg | hmsg
    · obtain ⟨piece, -, rfl⟩ := List.mem_map.1 hmsg
      trivial
    · obtain ⟨payload, -, rfl⟩ := List.mem_map.1 hmsg
      trivial

theorem truthful_openingMessages (h : MapInv n es m) (peer : Peer) (fast : List UInt32)
    (written : ℕ) :
    Truthful n m ((openingMessages peer m.bits fast).take written) := by
  rw [← h.length_eq]
  refine ⟨opened_openingMessages .., fun i => ?_⟩
  rw [countP_openingMessages]
  exact Bool.toNat_le_toNat (Bool.and_le_right _ _)

theorem mem_newPieces {now advertised : List Bool} (hlength : now.length = advertised.length) :
    i ∈ newPieces now advertised ↔ now.getD i false = true ∧ advertised.getD i false = false := by
  unfold newPieces
  rw [mem_filter, mem_range, Bool.and_eq_true, Bool.not_eq_true', hlength, min_self]
  refine ⟨fun h => h.2, fun h => ⟨?_, h⟩⟩
  by_contra hge
  rw [getD_eq_getElem?_getD, getElem?_eq_none (by omega)] at h
  cases h.1

variable {advertised : List Bool}

theorem toNat_of_mem_newPieces (h : MapInv n es m)
    (hlength : advertised.length = n) {j : ℕ} (hj : j ∈ newPieces m.bits advertised) :
    (UInt32.ofNat j).toNat = j ∧ j < n := by
  have hhas : m.Has j := ((mem_newPieces (h.length_eq.trans hlength.symm)).1 hj).1
  exact ⟨UInt32.toNat_ofNat_of_lt' (h.small j hhas), h.lt_length hhas⟩

theorem follows_haveMessages (h : MapInv n es m) (hlength : advertised.length = n) :
    ∀ msg ∈ haveMessages m.bits advertised, Follows n msg := by
  intro msg hmsg
  obtain ⟨j, hj, rfl⟩ := List.mem_map.1 hmsg
  obtain ⟨htoNat, hlt⟩ := toNat_of_mem_newPieces h hlength hj
  change (UInt32.ofNat j).toNat < n
  rwa [htoNat]

theorem countP_haveMessages (h : MapInv n es m) (hlength : advertised.length = n) (i : ℕ) :
    (haveMessages m.bits advertised).countP (tells n i) =
      (m.bits.getD i false && !advertised.getD i false).toNat := by
  have hcount : (newPieces m.bits advertised).countP (fun j => tells n i (.haveOne (.ofNat j))) =
      (newPieces m.bits advertised).count i := by
    refine countP_congr fun j hj => ?_
    rw [tells, decide_eq_true_iff, (toNat_of_mem_newPieces h hlength hj).1, beq_iff_eq]
  rw [haveMessages, countP_map]
  refine hcount.trans ((nodup_range.filter _).count.trans ?_)
  change (if i ∈ newPieces m.bits advertised then 1 else 0) = _
  simp only [mem_newPieces (h.length_eq.trans hlength.symm)]
  cases m.bits.getD i false <;> cases advertised.getD i false <;> rfl

theorem getD_toldAfter (now advertised : List Bool) (hlength : now.length = advertised.length) :
    (toldAfter now advertised).getD i false = (advertised.getD i false || now.getD i false) := by
  unfold toldAfter
  simp only [getD_eq_getElem?_getD, getElem?_map, getElem?_zipIdx]
  by_cases hi : i < advertised.length
  · rw [getElem?_eq_getElem hi]
    simp
  · rw [getElem?_eq_none (Nat.not_lt.1 hi), getElem?_eq_none (by omega)]
    rfl

theorem Truthful.haves (h : Truthful n m sent) (hmap : MapInv n es m)
    (hbegun : sent ≠ []) (hlength : advertised.length = n)
    (htold : ∀ i, sent.countP (tells n i) = (advertised.getD i false).toNat) (hsub : out.Sublist
      (haveMessages m.bits advertised)) : Truthful n m (sent ++ out) := by
  refine ⟨h.opened.append hbegun fun msg hmsg =>
    follows_haveMessages hmap hlength msg (hsub.subset hmsg), fun i => ?_⟩
  have hsent := h.told i
  have hout := hsub.countP_le (p := tells n i)
  rw [countP_haveMessages hmap hlength] at hout
  rw [countP_append, htold] at *
  cases hnow : m.bits.getD i false <;> cases hold : advertised.getD i false <;>
    simp_all

/-- What a connection knows of what it has told. -/
structure Knows (n : ℕ) (es : List ServeEvent) (sent : List Message) (sv : Serving) : Prop where
  begun : sent ≠ []
  length_eq : sv.advertised.length = n
  told : ∀ i, sent.countP (tells n i) = (sv.advertised.getD i false).toNat
  seen : sv.seenVersion ≤ (added es).length

/-- The pieces that were counted in the version last seen are told. -/
def CaughtUp (es : List ServeEvent) (sv : Serving) : Prop :=
  ∀ i ∈ (added es).take sv.seenVersion, sv.advertised.getD i false = true

/-- **A connection and what it has sent.** Only between the version and the
pieces of a tick may a counted piece be untold. -/
structure ConnInv (n : ℕ) (es : List ServeEvent) (m : HaveMap) (sent : List Message)
    (phase : Phase) : Prop where
  truthful : Truthful n m sent
  unbegun : phase = .opens ∨ (∃ version, phase = .opening version) → sent = []
  opening : ∀ version, phase = .opening version → version ≤ (added es).length
  knows : ∀ sv, phase.serving = some sv → Knows n es sent sv
  caughtUp : ∀ sv, phase.serving = some sv → phase ≠ .announcing sv → CaughtUp es sv

theorem truthful_nil : Truthful n m [] := ⟨.inl rfl, fun _ => Nat.zero_le _⟩

theorem ConnInv.opens : ConnInv n es m [] .opens :=
  ⟨truthful_nil, fun _ => rfl, nofun, nofun, nofun⟩

theorem ConnInv.closed (h : Truthful n m sent) : ConnInv n es m sent .closed :=
  ⟨h, fun hphase => hphase.elim nofun nofun, nofun, nofun, nofun⟩

variable {sv : Serving} {phase : Phase}

theorem ConnInv.of_serving (h : Truthful n m sent)
    (hserving : phase.serving = some sv) (hknows : Knows n es sent sv)
    (hcaught : phase ≠ .announcing sv → CaughtUp es sv) : ConnInv n es m sent phase := by
  have heq : ∀ sv', phase.serving = some sv' → sv' = sv := fun sv' h' =>
    some_inj.1 (h'.symm.trans hserving)
  refine ⟨h, ?_, ?_, fun sv' h' => ?_, fun sv' h' => ?_⟩
  · rintro (rfl | ⟨version, rfl⟩) <;> cases hserving
  · rintro version rfl
    cases hserving
  · rw [heq sv' h']
    exact hknows
  · rw [heq sv' h']
    exact hcaught

theorem length_added_le : (added es).length ≤ (added (es ++ [e])).length := by
  rw [added_snoc, length_append]
  exact Nat.le_add_right _ _

theorem ConnInv.mono (h : ConnInv n es m sent phase)
    (hhas : ∀ i, m.Has i → m'.Has i) : ConnInv n (es ++ [e]) m' sent phase := by
  refine ⟨⟨h.truthful.opened, fun i => (h.truthful.told i).trans
      (Bool.toNat_le_toNat (Bool.le_iff_imp.2 (hhas i)))⟩, h.unbegun,
      fun version hv => (h.opening version hv).trans length_added_le, fun sv hsv => ?_,
    fun sv hsv hne i hi => ?_⟩
  · obtain ⟨hbegun, hlength, htold, hseen⟩ := h.knows sv hsv
    exact ⟨hbegun, hlength, htold, hseen.trans length_added_le⟩
  · rw [added_snoc, take_append_of_le_length (h.knows sv hsv).seen] at hi
    exact h.caughtUp sv hsv hne i hi

theorem ConnInv.plain {phase' : Phase} (h : ConnInv n es m sent phase)
    (hserving : phase.serving = some sv) (hne : phase ≠ .announcing sv)
    (hplain : ∀ msg ∈ out, isPlain msg = true)
    (hafter : phase' = .closed ∨ ∃ sv', phase'.serving = some sv' ∧
      sv'.advertised = sv.advertised ∧ sv'.seenVersion = sv.seenVersion) :
    ConnInv n es m (sent ++ out) phase' := by
  have hknows := h.knows sv hserving
  have htruthful := h.truthful.plain (.inl hknows.begun) hplain
  rcases hafter with rfl | ⟨sv', hserving', hadvertised, hseen⟩
  · exact .closed htruthful
  · refine .of_serving htruthful hserving' ⟨?_, ?_, fun i => ?_, ?_⟩ fun _ i hi => ?_
    · exact append_ne_nil_of_left_ne_nil hknows.begun out
    · rw [hadvertised]
      exact hknows.length_eq
    · rw [countP_append, countP_plain hplain, hadvertised]
      exact hknows.told i
    · rw [hseen]
      exact hknows.seen
    · rw [hseen] at hi
      rw [hadvertised]
      exact h.caughtUp sv hserving hne i hi

theorem handle_plain (w : World) (sv : Serving) (msg : Message) (answer : Option Message) :
    ((handle w sv msg answer).2.1 = .closed ∨ (handle w sv msg answer).2.1.serving = some sv) ∧
      ∀ msg' ∈ (handle w sv msg answer).2.2, isPlain msg' = true := by
  have hother : ∀ msg' ∈ answer.toList.filter isOtherAnswer, isPlain msg' = true := by
    intro msg' hmsg
    have hmsg := (mem_filter.1 hmsg).2
    cases msg' <;> first | rfl | cases hmsg
  unfold handle
  split
  · exact ⟨.inr rfl, nofun⟩
  · exact ⟨.inr rfl, nofun⟩
  · split
    · refine ⟨.inr rfl, fun msg' hmsg => ?_⟩
      dsimp only at hmsg
      split at hmsg
      · obtain rfl := mem_singleton.1 hmsg
        rfl
      · cases hmsg
    · split
      · exact ⟨.inl rfl, nofun⟩
      · exact ⟨.inr rfl, nofun⟩
  · exact ⟨.inr rfl, hother⟩
  · exact ⟨.inr rfl, hother⟩
  · exact ⟨.inr rfl, nofun⟩

theorem ConnInv.begins {version : ℕ} (h : ConnInv n es m sent (.opening version))
    (hmap : MapInv n es m) (peer : Peer) (id : PeerId) (fast : List UInt32) :
    ConnInv n es m (sent ++ openingMessages peer m.bits fast)
      (.idle ⟨id, peer.fast, fast.toFinset, false, version, m.bits⟩) := by
  rw [h.unbegun (.inr ⟨version, rfl⟩), nil_append]
  have hall := take_length (l := openingMessages peer m.bits fast)
  have htruthful := truthful_openingMessages hmap peer fast
    (openingMessages peer m.bits fast).length
  have htold := fun i => countP_openingMessages peer m.bits fast
    (openingMessages peer m.bits fast).length i
  rw [hall] at htruthful
  rw [hall, hmap.length_eq] at htold
  exact .of_serving htruthful rfl ⟨cons_ne_nil _ _, hmap.length_eq, htold,
    h.opening version rfl⟩ fun _ i hi => (hmap.has_iff i).2 (.inl (mem_of_mem_take hi))

theorem ConnInv.announces (h : ConnInv n es m sent (.announcing sv))
    (hmap : MapInv n es m) : ConnInv n es m (sent ++ haveMessages m.bits sv.advertised)
      (.choosing { sv with advertised := toldAfter m.bits sv.advertised }) := by
  obtain ⟨hbegun, hlength, htold, hseen⟩ := h.knows sv rfl
  have hnow : ∀ i, (toldAfter m.bits sv.advertised).getD i false =
      (sv.advertised.getD i false || m.bits.getD i false) := fun i =>
    getD_toldAfter m.bits sv.advertised (hmap.length_eq.trans hlength.symm)
  refine .of_serving (h.truthful.haves hmap hbegun hlength htold (List.Sublist.refl _)) rfl
    ⟨append_ne_nil_of_left_ne_nil hbegun _, ?_, fun i => ?_, hseen⟩ fun _ i hi => ?_
  · simpa [toldAfter] using hlength
  · rw [countP_append, htold, countP_haveMessages hmap hlength, hnow]
    cases sv.advertised.getD i false <;> simp
  · have hhas : m.bits.getD i false = true := (hmap.has_iff i).2 (.inl (mem_of_mem_take hi))
    rw [hnow, hhas, Bool.or_true]

/-- **The invariant of a run.** -/
structure SeedInv (n : ℕ) (es : List ServeEvent) (s : Seeding) : Prop where
  map : MapInv n es s.world.haveMap
  conns : ∀ k c, s.conns[k]? = some c → ConnInv n es s.world.haveMap (sentTo k es) c.phase
  others : ∀ k, s.conns[k]? = none → sentTo k es = []

theorem mapInv_new : MapInv n [] (.new n) := by
  have hnone : ∀ i, ¬(HaveMap.new n).Has i := fun i hi => by
    rw [HaveMap.Has, HaveMap.new, getD_eq_getElem?_getD, getElem?_replicate] at hi
    split at hi <;> cases hi
  exact ⟨length_replicate, rfl, fun i => iff_of_false (hnone i) nofun,
    fun i hi => absurd hi (hnone i)⟩

theorem SeedInv.start (slots : ℕ) (fs : FileSystem) : SeedInv n [] (.start n slots fs) :=
  ⟨mapInv_new, fun _ _ hc => (by cases hc), fun _ _ => rfl⟩

theorem SeedInv.truthful (h : SeedInv n es s) (k : ℕ) :
    Truthful n s.world.haveMap (sentTo k es) := by
  cases hc : s.conns[k]? with
  | none =>
    rw [h.others k hc]
    exact truthful_nil
  | some c => exact (h.conns k c hc).truthful

/-- The version a connection has last seen counts a piece, unless it has
ended. -/
def Aware (es : List ServeEvent) (i : ℕ) (phase : Phase) : Prop :=
  phase = .closed ∨ ∃ sv, phase.serving = some sv ∧ i ∈ (added es).take sv.seenVersion

theorem Aware.mono (h : Aware es i phase) : Aware (es ++ [e]) i phase := by
  refine h.imp_right ?_
  rintro ⟨sv, hserving, hi⟩
  refine ⟨sv, hserving, ?_⟩
  rw [added_snoc]
  exact ((prefix_append _ _).take _).subset hi

section Steps

variable [Digests] {sh : Shared} {s t : Seeding} {w w' : World}
  {phase phase' : Phase} {a : Act}

theorem Does.haveMap_eq (h : Does sh peer w phase a w' phase' out) : w'.haveMap = w.haveMap := by
  cases h with
  | hears hr =>
    subst hr
    unfold handle
    split
    · rfl
    · rfl
    · split
      · rfl
      · split <;> rfl
    · rfl
    · rfl
    · rfl
  | fails hfail =>
    cases phase.serving <;> rfl
  | _ => rfl

theorem MapInv.step (h : MapInv n es s.world.haveMap) (hstep : (seeding sh).step s e t) :
    MapInv n (es ++ [e]) t.world.haveMap ∧ ∀ i, s.world.haveMap.Has i → t.world.haveMap.Has i := by
  cases e with
  | marks index =>
    obtain ⟨m, hmark, rfl⟩ := hstep
    refine ⟨h.mark hmark, fun i hi => ?_⟩
    obtain ⟨-, rfl | ⟨rfl, hindex⟩⟩ := mark_cases hmark
    · exact hi
    · exact (has_set hindex).2 (.inr hi)
  | bumps index =>
    obtain ⟨hwriter, m, hbump, rfl⟩ := hstep
    refine ⟨h.bump hwriter hbump, fun i hi => ?_⟩
    rw [HaveMap.bump, hwriter] at hbump
    cases hbump
    exact hi
  | releases =>
    obtain ⟨m, hrelease, rfl⟩ := hstep
    refine ⟨h.release hrelease, fun i hi => ?_⟩
    unfold HaveMap.release at hrelease
    split at hrelease
    · cases hrelease
      exact hi
    · cases hrelease
  | rechokes | downloads | writesDisk | connects =>
    obtain rfl := hstep
    exact ⟨h.other rfl, fun _ hi => hi⟩
  | acts k a sent =>
    obtain ⟨c, w, phase, -, hact, rfl⟩ := hstep
    have hsame := (Does.of_act hact).haveMap_eq
    refine ⟨?_, fun i hi => ?_⟩
    · rw [hsame]
      exact h.other rfl
    · rwa [hsame]

theorem ConnInv.act (h : ConnInv n es w.haveMap sent phase) (hmap : MapInv n es w.haveMap)
    (hdoes : Does sh peer w phase a w' phase' out) :
    ConnInv n es w.haveMap (sent ++ out) phase' := by
  cases hdoes with
  | readsVersion =>
    rw [h.unbegun (.inl rfl)]
    refine ⟨truthful_nil, fun _ => rfl, fun version hv => ?_, nofun, nofun⟩
    rw [← Phase.opening.inj hv]
    exact hmap.version_eq.le
  | beginFails hfree hfast =>
    rw [h.unbegun (.inr ⟨_, rfl⟩), nil_append]
    exact .closed (truthful_openingMessages hmap _ _ _)
  | begins hfree hfast => exact h.begins hmap _ _ _
  | @ticksNew sv =>
    obtain ⟨hbegun, hlength, htold, -⟩ := h.knows sv rfl
    rw [append_nil]
    exact .of_serving h.truthful rfl ⟨hbegun, hlength, htold, hmap.version_eq.le⟩
      fun hne => absurd rfl hne
  | @announceFails sv written hfree =>
    obtain ⟨hbegun, hlength, htold, -⟩ := h.knows sv rfl
    exact .closed (h.truthful.haves hmap hbegun hlength htold (take_sublist _ _))
  | announces hfree => exact h.announces hmap
  | tells hsent =>
    refine h.plain rfl nofun ?_ (.inr ⟨_, rfl, rfl, rfl⟩)
    rcases hsent with rfl | rfl | rfl <;> simp [isPlain]
  | @hears sv msg answer r hr =>
    subst hr
    obtain ⟨hphase, hplain⟩ := handle_plain w sv msg answer
    exact h.plain rfl nofun hplain (hphase.imp_right fun hphase => ⟨sv, hphase, rfl, rfl⟩)
  | grants | bounds => exact h.plain rfl nofun nofun (.inr ⟨_, rfl, rfl, rfl⟩)
  | rejects hsent =>
    refine h.plain rfl nofun ?_ (.inr ⟨_, rfl, rfl, rfl⟩)
    rcases hsent with rfl | rfl <;> simp [isPlain]
  | ticksSame | reads => exact h.plain rfl nofun nofun (.inr ⟨_, rfl, rfl, rfl⟩)
  | readFails => exact h.plain rfl nofun nofun (.inl rfl)
  | sends => exact h.plain rfl nofun (by simp [isPlain]) (.inr ⟨_, rfl, rfl, rfl⟩)
  | counts | records => exact h.plain rfl nofun nofun (.inr ⟨_, rfl, rfl, rfl⟩)
  | fails hfail =>
    rw [append_nil]
    exact .closed h.truthful

theorem SeedInv.step (h : SeedInv n es s) (hstep : (seeding sh).step s e t) :
    SeedInv n (es ++ [e]) t := by
  obtain ⟨hmap, hmono⟩ := h.map.step hstep
  refine ⟨hmap, fun k c' hc' => ?_, fun k => sentTo_eq_nil hstep h.others⟩
  rw [sentTo_snoc]
  rcases conn_cases hstep hc' with ⟨hc, hother⟩ | ⟨rfl, peer, rfl, rfl⟩ |
    ⟨c, a, sent, rfl, hc, -, hdoes⟩
  · rw [sentTo_of_ne hother, append_nil]
    exact (h.conns k c' hc).mono hmono
  · rw [h.others _ (getElem?_eq_none (Nat.le_refl _))]
    exact .opens
  · rw [ServeEvent.sentTo, if_pos rfl]
    exact ((h.conns k c hc).act h.map hdoes).mono hmono

variable {fs : FileSystem}

theorem SeedInv.of_run {slots : ℕ}
    (hrun : (seeding sh).Run (.start n slots fs) es s) : SeedInv n es s := by
  refine LTS.Run.history ?_ hrun (.start slots fs)
  exact fun _ _ _ _ h hstep => h.step hstep

theorem Does.seenVersion (h : Does sh peer w phase a w' phase' out)
    (hserving : phase.serving = some sv) :
    phase' = .closed ∨ ∃ sv', phase'.serving = some sv' ∧
      (sv'.seenVersion = sv.seenVersion ∨ sv'.seenVersion = w.haveMap.version) := by
  cases h with
  | readsVersion | beginFails | begins => cases hserving
  | ticksNew => exact .inr ⟨_, rfl, .inr rfl⟩
  | announceFails | readFails | fails => exact .inl rfl
  | @hears _ msg answer r hr =>
    subst hr
    cases hserving
    exact (handle_plain w sv msg answer).1.imp_right fun hphase => ⟨sv, hphase, .inl rfl⟩
  | _ =>
    cases hserving
    exact .inr ⟨_, rfl, .inl rfl⟩

theorem Aware.act (h : Aware es i phase) (hmap : MapInv n es w.haveMap)
    (hdoes : Does sh peer w phase a w' phase' out) : Aware es i phase' := by
  rcases h with rfl | ⟨sv, hserving, hi⟩
  · cases hdoes with
    | fails hfail => cases hfail
  · refine (hdoes.seenVersion hserving).imp_right ?_
    rintro ⟨sv', hserving', hseen | hseen⟩
    · exact ⟨sv', hserving', by rwa [hseen]⟩
    · refine ⟨sv', hserving', ?_⟩
      rw [hseen, hmap.version_eq, take_length]
      exact mem_of_mem_take hi

theorem aware_of_ticks (hmap : MapInv n es w.haveMap) (hi : w.haveMap.Added i)
    (hdoes : Does sh peer w phase .ticks w' phase' out) : Aware es i phase' := by
  have hadded : i ∈ (added es).take w.haveMap.version := by
    rw [hmap.version_eq, take_length]
    exact ((hmap.has_iff i).1 hi.1).resolve_right hi.2.1
  cases hdoes with
  | @ticksSame sv hsame =>
    rw [hsame] at hadded
    exact .inr ⟨sv, rfl, hadded⟩
  | ticksNew => exact .inr ⟨_, rfl, hadded⟩

theorem Does.tells_cases (h : Does sh peer w phase .tells w' phase' out) : ∃ sv told,
    phase = .choosing sv ∧ phase' = .idle { sv with toldUnchoked := told } := by
  cases h with
  | tells => exact ⟨_, _, rfl, rfl⟩

variable {es₂ : List ServeEvent}

theorem aware_of_run {c : Conn} (hinv : SeedInv n es s)
    (hc : s.conns[k]? = some c) (haware : Aware es i c.phase)
    (hrun : (seeding sh).Run s es₂ t) :
    ∃ c', t.conns[k]? = some c' ∧ SeedInv n (es ++ es₂) t ∧ Aware (es ++ es₂) i c'.phase := by
  refine LTS.Run.history (I := fun es₂ t => ∃ c', t.conns[k]? = some c' ∧
    SeedInv n (es ++ es₂) t ∧ Aware (es ++ es₂) i c'.phase) ?_ hrun
    ⟨c, hc, by rwa [append_nil], by rwa [append_nil]⟩
  rintro es₂ s e t ⟨c, hc, hinv, haware⟩ hstep
  rw [← append_assoc]
  obtain ⟨c', hc'⟩ := conn_stays hstep hc
  refine ⟨c', hc', hinv.step hstep, ?_⟩
  rcases conn_cases hstep hc' with ⟨hsame, -⟩ | ⟨hk, -⟩ | ⟨c₁, a, sent, -, hc₁, -, hdoes⟩
  · obtain rfl := some_inj.1 (hc.symm.trans hsame)
    exact haware.mono
  · rw [hk, getElem?_eq_none (Nat.le_refl _)] at hc
    cases hc
  · obtain rfl := some_inj.1 (hc.symm.trans hc₁)
    exact (haware.act hinv.map hdoes).mono

theorem told_of_tick {out₁ out₂ : List Message} (hinv : SeedInv n es s)
    (hi : s.world.haveMap.Added i) (hrun : (seeding sh).Run s
      ([.acts k .ticks out₁] ++ es₂ ++ [.acts k .tells out₂]) t) :
    (sentTo k (es ++ ([.acts k .ticks out₁] ++ es₂ ++ [.acts k .tells out₂]))).any
      (tells n i) = true := by
  obtain ⟨t₂, hrun, hlast⟩ := hrun.split
  obtain ⟨t₁, hfirst, hrest⟩ := hrun.split
  have hfirst := hfirst.step_of_singleton
  have hlast := hlast.step_of_singleton
  obtain ⟨c₀, c₁, -, hc₁, -, hticks⟩ := acts_cases hfirst
  obtain ⟨c₂, hc₂, hinv₂, haware⟩ := aware_of_run (hinv.step hfirst) hc₁
    (aware_of_ticks hinv.map hi hticks).mono hrest
  obtain ⟨c, c₃, hc, hc₃, -, htells⟩ := acts_cases hlast
  obtain rfl := some_inj.1 (hc₂.symm.trans hc)
  obtain ⟨sv, told, hchoosing, hidle⟩ := htells.tells_cases
  obtain ⟨sv', hserving, hmem⟩ := haware.resolve_left (by rw [hchoosing]; nofun)
  rw [hchoosing] at hserving
  cases hserving
  have htold := (hinv₂.conns k c₂ hc₂).caughtUp sv (by rw [hchoosing]; rfl)
    (by rw [hchoosing]; nofun) i hmem
  have hknows := ((hinv₂.step hlast).conns k c₃ hc₃).knows _ (by rw [hidle]; rfl)
  rw [← append_assoc, ← append_assoc, any_tells_iff, hknows.told i, htold]
  exact Nat.one_pos

/-- **What a peer is told of the pieces**, over every interleaving: only of
pieces that are there, of each at most once, and of every piece that was
added before a tick once the tick is over. A `PeerState` that is fed with
the messages has the pieces it was told of, of those it tracks. -/
theorem told_of_pieces {slots : ℕ} {fs : FileSystem}
    (hrun : (seeding sh).Run (.start n slots fs) es s) (k : ℕ) :
    (∀ i, (sentTo k es).any (tells n i) = true → s.world.haveMap.Has i) ∧
    (∀ i, (sentTo k es).countP (tells n i) ≤ 1) ∧
    (∀ i, s.world.haveMap.Added i → ∀ es₂ out₁ out₂ t, (seeding sh).Run s
      ([.acts k .ticks out₁] ++ es₂ ++ [.acts k .tells out₂]) t →
      (sentTo k (es ++ ([.acts k .ticks out₁] ++ es₂ ++ [.acts k .tells out₂]))).any
        (tells n i) = true) ∧
    ∀ i, (hearAll (.forTorrent n) (sentTo k es)).peerHasPieces.getD i false = true ↔
      (sentTo k es).any (tells n i) = true ∧ i < maxTrackedPieces := by
  have hinv := SeedInv.of_run hrun
  have htruthful := hinv.truthful k
  have hhas : ∀ i, (sentTo k es).any (tells n i) = true → s.world.haveMap.Has i := fun i hi =>
    Bool.eq_true_of_not_eq_false fun hnone => by
      have hle := (any_tells_iff.1 hi).trans_le (htruthful.told i)
      rw [hnone] at hle
      exact hle.false
  refine ⟨hhas, fun i => (htruthful.told i).trans (Bool.toNat_le _),
    fun i hi es₂ out₁ out₂ t hafter => told_of_tick hinv hi hafter, fun i => ?_⟩
  rw [hasPiece_hearAll htruthful.opened, Bool.and_eq_true, decide_eq_true_iff, lt_min_iff]
  refine ⟨fun h => ⟨h.1, h.2.2⟩, fun h => ⟨h.1, ?_, h.2⟩⟩
  exact hinv.map.lt_length (hhas i h.1)

end Steps

/-- A torrent of one piece. -/
def onePiece : Shared := ⟨.replicate 20 0, [], 16, 16, none⟩

/-- A peer of the original protocol. -/
def plainPeer : Peer := ⟨false, none, none⟩

theorem told_of_pieces_sample : ∃ es s t,
    (@seeding .zero onePiece).Run (.start 1 1 fun _ => none) es s ∧ s.world.haveMap.Added 0 ∧
    (@seeding .zero onePiece).Run s ([.acts 0 .ticks []] ++
      [.acts 0 (.announces 1) [.haveOne 0]] ++ [.acts 0 .tells []]) t ∧
    (sentTo 0 (es ++ ([.acts 0 .ticks []] ++ [.acts 0 (.announces 1) [.haveOne 0]] ++
      [.acts 0 .tells []]))).any (tells 1 0) = true := by
  let _ : Digests := .zero
  have hbegun : (seeding onePiece).Run (.start 1 1 fun _ => none)
      ([] ++ [.connects plainPeer] ++ [.acts 0 .readsVersion []] ++
        [.acts 0 (.begins 0 1) [.bitfield [0]]] ++ [.marks 0] ++ [.bumps 0] ++ [.releases])
      ⟨⟨⟨[true], 1, none⟩, (Choker.new 1).register.2, fun _ => none, 0⟩,
        [⟨plainPeer, .idle ⟨0, false, ∅, false, 0, [false]⟩⟩]⟩ :=
    .snoc (.snoc (.snoc (.snoc (.snoc (.snoc .nil rfl) ⟨_, _, _, rfl, rfl, rfl⟩)
      ⟨_, _, _, rfl, rfl, rfl⟩) ⟨_, rfl, rfl⟩) ⟨rfl, _, rfl, rfl⟩) ⟨_, rfl, rfl⟩
  have htick : (seeding onePiece).Run
      ⟨⟨⟨[true], 1, none⟩, (Choker.new 1).register.2, fun _ => none, 0⟩,
        [⟨plainPeer, .idle ⟨0, false, ∅, false, 0, [false]⟩⟩]⟩
      ([.acts 0 .ticks []] ++ [.acts 0 (.announces 1) [.haveOne 0]] ++ [.acts 0 .tells []])
      ⟨⟨⟨[true], 1, none⟩, (Choker.new 1).register.2, fun _ => none, 0⟩,
        [⟨plainPeer, .idle ⟨0, false, ∅, false, 1, [true]⟩⟩]⟩ :=
    .snoc (.snoc (.snoc .nil ⟨_, _, _, rfl, rfl, rfl⟩) ⟨_, _, _, rfl, rfl, rfl⟩)
      ⟨_, _, _, rfl, rfl, rfl⟩
  exact ⟨_, _, _, hbegun, ⟨rfl, nofun, nofun⟩, htick,
    (told_of_pieces hbegun 0).2.2.1 0 ⟨rfl, nofun, nofun⟩ _ _ _ _ htick⟩

theorem exists_told [Digests] (sh : Shared) {slots : ℕ} {fs : FileSystem} (index : UInt32)
    (hindex : index.toNat < n) :
    ∃ es s, (seeding sh).Run (.start n slots fs) es s ∧
      (sentTo 0 es).any (tells n index.toNat) = true := by
  have hmark : (HaveMap.new n).mark index = some ⟨(replicate n false).set index.toNat true, 0,
      some (.marked index.toNat)⟩ := by
    have hnew : (replicate n false)[index.toNat]? = some false := by
      rw [getElem?_replicate, if_pos hindex]
    exact if_pos hnew
  have hrun : (seeding sh).Run (.start n slots fs)
      ([] ++ [.marks index] ++ [.bumps index.toNat] ++ [.releases] ++ [.connects plainPeer] ++
        [.acts 0 .readsVersion []] ++ [.acts 0 (.begins 0 1) [firstMessage false
          ((replicate n false).set index.toNat true)]])
      ⟨⟨⟨(replicate n false).set index.toNat true, 1, none⟩, (Choker.new slots).register.2,
        fs, 0⟩, [⟨plainPeer, .idle ⟨0, false, ∅, false, 1,
          (replicate n false).set index.toNat true⟩⟩]⟩ :=
    .snoc (.snoc (.snoc (.snoc (.snoc (.snoc .nil ⟨_, hmark, rfl⟩) ⟨rfl, _, rfl, rfl⟩)
      ⟨_, rfl, rfl⟩) rfl) ⟨_, _, _, rfl, rfl, rfl⟩) ⟨_, _, _, rfl, rfl, rfl⟩
  refine ⟨_, _, hrun, ?_⟩
  have htells := tells_firstMessage false ((replicate n false).set index.toNat true) index.toNat
  rw [length_set, length_replicate, getD_eq_getElem?_getD,
    getElem?_set_self (by rwa [length_replicate])] at htells
  simpa [sentTo, ServeEvent.sentTo] using htells

theorem told_past_tracked : ∃ es s, (@seeding .zero onePiece).Run
      (.start (maxTrackedPieces + 1) 1 fun _ => none) es s ∧
    (sentTo 0 es).any (tells (maxTrackedPieces + 1) maxTrackedPieces) = true ∧
    (hearAll (.forTorrent (maxTrackedPieces + 1)) (sentTo 0 es)).peerHasPieces.getD
      maxTrackedPieces false = false := by
  let _ : Digests := .zero
  obtain ⟨es, s, hrun, htold⟩ := exists_told (n := maxTrackedPieces + 1) onePiece
    (.ofNat maxTrackedPieces) (by decide)
  refine ⟨es, s, hrun, htold, ?_⟩
  rw [hasPiece_hearAll ((SeedInv.of_run hrun).truthful 0).opened]
  simp

end BitTorrent.Serving
