import BitTorrent.Mse.Link

/-!
# Both ends finish, and what is written arrives

An end that is at its script has done with what it has read what its script does with it, and what
it has read is a beginning of what the other end writes (`PartyInv`).
-/

namespace BitTorrent.Mse

open List Option

open Script

/-- What a direction makes of bytes. -/
def sealWith (cipher : Option Rc4) (bytes : List UInt8) : List UInt8 :=
  match cipher with
  | none => bytes
  | some c => (c.apply bytes).1

/-- The cipher of a direction after bytes. -/
def advance (cipher : Option Rc4) (bytes : List UInt8) : Option Rc4 :=
  cipher.map fun c => (c.apply bytes).2

variable {cipher : Option Rc4} (xs ys : List UInt8)

theorem sealWith_append :
    sealWith cipher (xs ++ ys) = sealWith cipher xs ++ sealWith (advance cipher xs) ys := by
  cases cipher with
  | none => rfl
  | some c => exact congrArg Prod.fst (c.apply_append xs ys)

theorem advance_append :
    advance cipher (xs ++ ys) = advance (advance cipher xs) ys := by
  cases cipher with
  | none => rfl
  | some c => exact congrArg (fun r => some r.2) (c.apply_append xs ys)

theorem sealWith_sealWith (cipher : Option Rc4) (bytes : List UInt8) :
    sealWith cipher (sealWith cipher bytes) = bytes := by
  cases cipher with
  | none => rfl
  | some c => exact congrArg Prod.fst (c.apply_apply bytes)

theorem length_sealWith (bytes : List UInt8) : (sealWith cipher bytes).length = bytes.length := by
  cases cipher with
  | none => rfl
  | some c => exact c.length_apply bytes

@[simp] theorem sealWith_nil : sealWith cipher [] = [] :=
  eq_nil_of_length_eq_zero (length_sealWith [])

@[simp] theorem advance_nil : advance cipher [] = cipher := by
  cases cipher <;> rfl

theorem sealWith_begins {bytes read : List UInt8} (h : read <+: sealWith cipher bytes) :
    sealWith cipher read <+: bytes := by
  obtain ⟨rest, hrest⟩ := h
  rw [← sealWith_sealWith cipher bytes, ← hrest, sealWith_append]
  exact prefix_append ..

namespace MseStream

variable (stream : MseStream)

theorem write_spec (buf : List UInt8) (accepted : ℕ) : (stream.write buf accepted).2.1 =
      sealWith stream.encrypt (buf.take (stream.write buf accepted).1) ∧
    (stream.write buf accepted).2.2 = { stream with
        encrypt := advance stream.encrypt (buf.take (stream.write buf accepted).1) } := by
  obtain ⟨encrypt, decrypt, replay⟩ := stream
  cases encrypt with
  | none => exact ⟨take_eq_take_min .., rfl⟩
  | some c =>
    simp only [write, take_length]
    exact ⟨rfl, rfl⟩

theorem read_of_replay (h : stream.replay ≠ []) (length : ℕ) (inner : List UInt8) :
    ∃ rest, stream.replay = (stream.read length inner).1 ++ rest ∧
      (stream.read length inner).2 = { stream with replay := rest } := by
  rw [read, if_pos h]
  exact ⟨_, (take_append_drop ..).symm, rfl⟩

theorem read_of_not_replay (h : stream.replay = []) (length : ℕ) (inner : List UInt8) :
    stream.read length inner =
      (sealWith stream.decrypt inner, { stream with decrypt := advance stream.decrypt inner }) := by
  obtain ⟨encrypt, decrypt, replay⟩ := stream
  rw [read, if_neg (not_not.2 h)]
  cases decrypt with
  | none | some => rfl

end MseStream

section Runs

variable [Digests] {x : Setting} {ya yb s : Key} {side : Side} {es : List LinkEvent}

/-- The messages of an end. -/
def Setting.messages (x : Setting) (ya yb s : Key) : Side → List (List UInt8)
  | .initiator => [x.hello ya, x.request s]
  | .responder => [x.reply yb, (x.sealedAnswer s).1]

/-- The stream that an end's script ends with. -/
def Setting.endStream (x : Setting) (s : Key) : Side → MseStream
  | .initiator => x.initiatorStream s
  | .responder => x.responderStream s

theorem run_script (hx : x.Fits) (h : x.Agreed ya yb s) (side : Side) :
    (x.script side).run (x.messages ya yb s side.other).flatten =
      ⟨x.messages ya yb s side, .done (x.endStream s side, x.infoHash), []⟩ := by
  cases side with
  | initiator =>
    have hflatten :
        (x.messages ya yb s .responder).flatten = x.reply yb ++ (x.sealedAnswer s).1 := by
      rw [Setting.messages, flatten_cons, flatten_cons, flatten_nil, append_nil]
    change x.initiate.run (x.messages ya yb s .responder).flatten = _
    rw [hflatten, Setting.initiate, run_bind_of_done (run_initiateWithPads hx h)]
    rfl
  | responder =>
    have hflatten : (x.messages ya yb s .initiator).flatten = x.hello ya ++ x.request s := by
      rw [Setting.messages, flatten_cons, flatten_cons, flatten_nil, append_nil]
    change x.respond.run (x.messages ya yb s .initiator).flatten = _
    rw [hflatten, run_respond hx h]
    rfl

theorem endStream_decrypt (x : Setting) (s : Key) (side : Side) :
    (x.endStream s side).decrypt = (x.endStream s side.other).encrypt := by
  cases side <;> rfl

theorem isSome_encrypt (x : Setting) (s : Key) (side : Side) :
    (x.endStream s side).encrypt.isSome = x.accept.allowRc4 := by
  have hafterwards : ∀ cipher, (x.afterwards cipher).isSome = x.accept.allowRc4 := by
    intro cipher
    cases haccept : x.accept.allowRc4 with
    | true => rw [afterwards_of_rc4 haccept, isSome_some]
    | false => rw [afterwards_of_not_rc4 haccept, isSome_none]
  cases side with
  | initiator | responder => exact hafterwards _

/-- **What an end has done**: what it has written and read through its
stream, the steps of the exchange it has taken, and what it has read and
written of the stream inside. -/
inductive PartyInv (x : Setting) (ya yb s : Key) (side : Side) (written read : List UInt8)
    (shakes : ℕ) (consumed sent : List UInt8) : Party → Prop
  /-- At its script: it has read a beginning of what the other end writes,
  and is where the script is after that. -/
  | shaking {script : Exchange (MseStream × Hash20)} (msgs : List (List UInt8)) :
      written = [] → read = [] →
      consumed <+: (x.messages ya yb s side.other).flatten → sent = msgs.flatten →
      (x.script side).run consumed =
        ⟨msgs ++ (script.run []).sent, (script.run []).now, []⟩ →
      shakes ≤ consumed.length + msgs.length →
      PartyInv x ya yb s side written read shakes consumed sent (.shaking script)
  /-- Past it: each cipher has moved on by what has gone through it. -/
  | talking {stream : MseStream} (taken passed : List UInt8) :
      stream.encrypt = advance (x.endStream s side).encrypt written →
      sent = (x.messages ya yb s side).flatten ++
        sealWith (x.endStream s side).encrypt written →
      consumed = (x.messages ya yb s side.other).flatten ++ passed →
      stream.decrypt = advance (x.endStream s side).decrypt passed →
      (x.endStream s side).replay = taken ++ stream.replay →
      (stream.replay ≠ [] → passed = []) →
      read = taken ++ sealWith (x.endStream s side).decrypt passed →
      shakes ≤
        (x.messages ya yb s side.other).flatten.length + (x.messages ya yb s side).length + 1 →
      PartyInv x ya yb s side written read shakes consumed sent (.talking stream x.infoHash)

/-- **Both ends**, and the bytes on their way. -/
def LinkInv (x : Setting) (ya yb s : Key) (es : List LinkEvent) (l : Link) : Prop :=
  ∃ consumed sent : Side → List UInt8,
    (∀ side, sent side.other = consumed side ++ l.toward side) ∧
    ∀ side, PartyInv x ya yb s side (writtenBy side es) (readBy side es)
      (es.countP (LinkEvent.shakes side)) (consumed side) (sent side) (l.party side)

omit [Digests] in
theorem Side.eq_or_eq_other (a b : Side) : b = a ∨ b = a.other := by
  cases a <;> cases b <;> decide

omit [Digests] in
theorem Side.other_ne (a : Side) : a.other ≠ a := by
  cases a <;> decide

omit [Digests] in
theorem Side.other_other (a : Side) : a.other.other = a := by
  cases a <;> rfl

variable {l : Link} {p : Party} {e : LinkEvent}

theorem LinkInv.put {consumed sent : Side → List UInt8} {chunk written rest : List UInt8}
    (hlink : ∀ side, sent side.other = consumed side ++ l.toward side)
    (hparty : ∀ side, PartyInv x ya yb s side (writtenBy side es) (readBy side es)
      (es.countP (LinkEvent.shakes side)) (consumed side) (sent side) (l.party side))
    (htoward : l.toward side = chunk ++ rest)
    (hown : PartyInv x ya yb s side (writtenBy side es ++ e.wrote side)
      (readBy side es ++ e.got side) (es.countP (LinkEvent.shakes side) + (e.shakes side).toNat)
      (consumed side ++ chunk) (sent side ++ written) p)
    (hother : e.wrote side.other = [] ∧ e.got side.other = [] ∧ e.shakes side.other = false) :
    LinkInv x ya yb s (es ++ [e]) (l.put side p written rest) := by
  have hne := Side.other_ne side
  have hsnoc : ∀ y, writtenBy y (es ++ [e]) = writtenBy y es ++ e.wrote y ∧
      readBy y (es ++ [e]) = readBy y es ++ e.got y ∧
      (es ++ [e]).countP (LinkEvent.shakes y) =
        es.countP (LinkEvent.shakes y) + (e.shakes y).toNat := by
    intro y
    refine ⟨by simp [writtenBy], by simp [readBy], ?_⟩
    rw [countP_append, countP_singleton]
    cases e.shakes y <;> rfl
  refine ⟨fun y => if y = side then consumed side ++ chunk else consumed y,
    fun y => if y = side then sent side ++ written else sent y, fun y => ?_, fun y => ?_⟩
  · rcases Side.eq_or_eq_other side y with rfl | rfl
    · simp only [Link.put, if_pos, if_neg hne]
      rw [hlink, htoward, append_assoc]
    · simp only [Link.put, if_neg hne, Side.other_other, if_pos]
      rw [← append_assoc, ← hlink side.other, Side.other_other]
  · rw [(hsnoc y).1, (hsnoc y).2.1, (hsnoc y).2.2]
    rcases Side.eq_or_eq_other side y with rfl | rfl
    · simp only [Link.put, if_pos]
      exact hown
    · simp only [Link.put, if_neg hne, hother, append_nil]
      exact hparty side.other

variable {consumed sent written read : List UInt8} {shakes : ℕ}

omit [Digests] in
theorem shakes_self (side : Side) (chunk : List UInt8) : (LinkEvent.sends side).shakes side = true ∧
    (LinkEvent.receives side chunk).shakes side = true ∧
    (LinkEvent.finishes side).shakes side = true := by
  simp [LinkEvent.shakes]

theorem PartyInv.sends {bytes : List UInt8} {next : Exchange (MseStream × Hash20)}
    (hinv : PartyInv x ya yb s side written read shakes consumed sent
      (.shaking (.send bytes next))) :
    PartyInv x ya yb s side written read (shakes + 1) consumed (sent ++ bytes) (.shaking next) := by
  cases hinv with
  | shaking msgs hwritten hread hconsumed hsent hrun hcount =>
    refine .shaking (msgs ++ [bytes]) hwritten hread hconsumed ?_ ?_ ?_
    · rw [hsent, flatten_append, flatten_singleton]
    · rw [hrun, append_assoc]
      rfl
    · rw [length_append, length_singleton]
      exact Nat.add_le_add_right hcount 1

variable {next : List UInt8 → Exchange (MseStream × Hash20)} {missing : ℕ}
  {infoHash : Hash20} {stream : MseStream}

section

variable (hinv : PartyInv x ya yb s side written read shakes consumed sent
  (.talking stream infoHash))

include hinv

theorem PartyInv.writes (buf : List UInt8) (accepted : ℕ) :
    PartyInv x ya yb s side (written ++ buf.take (stream.write buf accepted).1) read shakes consumed
      (sent ++ (stream.write buf accepted).2.1)
      (.talking (stream.write buf accepted).2.2 infoHash) := by
  obtain ⟨hsealed, hstream⟩ := stream.write_spec buf accepted
  cases hinv with
  | talking taken passed hencrypt hsent hconsumed hdecrypt htaken hreplay hread hcount =>
    rw [hsealed, hstream]
    refine .talking taken passed ?_ ?_ hconsumed hdecrypt htaken hreplay hread hcount
    · rw [advance_append, hencrypt]
    · rw [hsent, sealWith_append, hencrypt, append_assoc]

theorem PartyInv.reads {inner : List UInt8} {length : ℕ}
    (hnone : stream.replay ≠ [] → inner = []) :
    PartyInv x ya yb s side written (read ++ (stream.read length inner).1) shakes
      (consumed ++ inner) sent (.talking (stream.read length inner).2 infoHash) := by
  cases hinv with
  | talking taken passed hencrypt hsent hconsumed hdecrypt htaken hreplay hread hcount =>
    by_cases hempty : stream.replay = []
    · rw [stream.read_of_not_replay hempty]
      refine .talking taken (passed ++ inner) hencrypt hsent ?_ ?_ htaken (absurd hempty) ?_ hcount
      · rw [hconsumed, append_assoc]
      · rw [advance_append, ← hdecrypt]
      · rw [hread, sealWith_append, ← hdecrypt, append_assoc]
    · obtain ⟨rest, hrest, hstream⟩ := stream.read_of_replay hempty length inner
      have hpassed := hreplay hempty
      rw [hnone hempty] at hrest hstream ⊢
      rw [hstream]
      refine .talking (taken ++ (stream.read length []).1) passed hencrypt hsent ?_
        hdecrypt ?_ (fun _ => hpassed) ?_ hcount
      · rw [hconsumed, append_nil]
      · rw [htaken, hrest, append_assoc]
      · rw [hread, hpassed, sealWith_nil, append_nil, append_nil]

end

theorem PartyInv.waits (hinv : PartyInv x ya yb s side written read shakes consumed sent
      (.shaking (.read missing next))) :
    consumed <+: (x.messages ya yb s side.other).flatten ∧
      (x.script side).run consumed = ⟨((x.script side).run consumed).sent, .read missing next, []⟩ ∧
      sent = ((x.script side).run consumed).sent.flatten := by
  cases hinv with
  | shaking _ _ _ hconsumed hsent hrun _ =>
    rw [run_read_nil, append_nil] at hrun
    exact ⟨hconsumed, by rw [hrun], by rw [hrun, hsent]⟩

theorem meantFor_eq (x : Setting) (s : Key) (side : Side) (es : List LinkEvent) :
    x.meantFor side es = (x.endStream s side).replay ++ writtenBy side.other es := by
  cases side <;> rfl

section

variable (hx : x.Fits) (h : x.Agreed ya yb s)

include hx h

section

variable (hinv : PartyInv x ya yb s side written read shakes consumed sent p)

include hinv

theorem PartyInv.sent_cases : (sent <+: (x.messages ya yb s side).flatten ∧ written = []) ∨
    sent = (x.messages ya yb s side).flatten ++
      sealWith (x.endStream s side).encrypt (written) := by
  cases hinv with
  | @shaking script msgs hwritten _ hconsumed hsent hrun _ =>
    have hmessages := sent_mono (x.script side) hconsumed
    rw [hrun, run_script hx h] at hmessages
    dsimp only at hmessages
    obtain ⟨more, hmore⟩ := (prefix_append msgs (script.run []).sent).trans hmessages
    rw [hsent, ← hmore, flatten_append]
    exact .inl ⟨prefix_append .., hwritten⟩
  | talking _ _ _ hsent => exact .inr hsent

theorem PartyInv.comparable :
    sent <+: (x.messages ya yb s side).flatten ∨ (x.messages ya yb s side).flatten <+: sent := by
  rcases hinv.sent_cases hx h with ⟨hbegins, -⟩ | hsent
  · exact .inl hbegins
  · rw [hsent]
    exact .inr (prefix_append ..)

end

theorem PartyInv.sealed_of_sent {after : List UInt8}
    (hinv : PartyInv x ya yb s side written read shakes consumed
      ((x.messages ya yb s side).flatten ++ after) p) :
    after = sealWith (x.endStream s side).encrypt written := by
  rcases hinv.sent_cases hx h with ⟨hbegins, hwritten⟩ | hsent
  · have hlength := hbegins.length_le
    rw [length_append] at hlength
    rw [hwritten, sealWith_nil]
    exact eq_nil_of_length_eq_zero (by omega)
  · exact append_cancel_left hsent

theorem prefix_messages_of_left_nil {input : List UInt8}
    (hcomparable : input <+: (x.messages ya yb s side.other).flatten ∨
      (x.messages ya yb s side.other).flatten <+: input)
    (hleft : ((x.script side).run input).left = []) :
    input <+: (x.messages ya yb s side.other).flatten := by
  rcases hcomparable with hbegins | ⟨more, rfl⟩
  · exact hbegins
  · rw [run_append, run_script hx h] at hleft
    have hmore : more = [] := hleft
    rw [hmore, append_nil]

theorem PartyInv.receives {chunk : List UInt8}
    (hinv : PartyInv x ya yb s side written read shakes consumed sent
      (.shaking (.read missing next)))
    (more : List UInt8) (hchunk : chunk ≠ []) (hle : chunk.length ≤ missing + 1)
    (hcomparable : (consumed ++ chunk ++ more) <+: (x.messages ya yb s side.other).flatten ∨
      (x.messages ya yb s side.other).flatten <+: (consumed ++ chunk ++ more)) :
    PartyInv x ya yb s side written read (shakes + 1) (consumed ++ chunk) sent
      (.shaking (resume missing next chunk)) := by
  cases hinv with
  | shaking msgs hwritten hread hconsumed hsent hrun hcount =>
    rw [run_read_nil, append_nil] at hrun
    have hresume := run_resume next hle []
    rw [append_nil] at hresume
    have hrun' : (x.script side).run (consumed ++ chunk) =
        ⟨msgs ++ ((resume missing next chunk).run []).sent,
          ((resume missing next chunk).run []).now, []⟩ := by
      have hleft := left_run_nil (resume missing next chunk)
      rw [hresume] at hleft ⊢
      rw [run_append, hrun]
      dsimp only
      rw [nil_append, hleft]
    have hcomparable' : (consumed ++ chunk) <+: (x.messages ya yb s side.other).flatten ∨
        (x.messages ya yb s side.other).flatten <+: (consumed ++ chunk) := by
      rcases hcomparable with hbegins | hbegins
      · exact .inl ((prefix_append ..).trans hbegins)
      · exact prefix_or_prefix_of_prefix (prefix_append ..) hbegins
    have hpos := length_pos_iff.2 hchunk
    refine .shaking msgs hwritten hread
      (prefix_messages_of_left_nil hx h hcomparable' (by rw [hrun'])) hsent hrun' ?_
    rw [length_append]
    omega

theorem PartyInv.finishes (hinv : PartyInv x ya yb s side written read shakes consumed sent
      (.shaking (.done (stream, infoHash)))) :
    PartyInv x ya yb s side written read (shakes + 1) consumed sent (.talking stream infoHash) := by
  cases hinv with
  | shaking msgs hwritten hread hconsumed hsent hrun hcount =>
    obtain ⟨more, hmore⟩ := hconsumed
    have hall := run_script hx h side
    rw [← hmore, run_append, hrun] at hall
    simp only [run, append_nil, nil_append, Ran.mk.injEq, done.injEq, Prod.mk.injEq] at hall
    obtain ⟨rfl, ⟨rfl, rfl⟩, rfl⟩ := hall
    rw [append_nil] at hmore
    refine .talking [] [] ?_ ?_ ?_ ?_ rfl (fun _ => rfl) ?_ ?_
    · rw [hwritten, advance_nil]
    · rw [hwritten, sealWith_nil, append_nil, hsent]
    · rw [append_nil, hmore]
    · rw [advance_nil]
    · rw [hread, sealWith_nil, append_nil]
    · rw [← hmore]
      exact Nat.add_le_add_right hcount 1

theorem linkInv_step {m : Link} (hinv : LinkInv x ya yb s es l)
    (hstep : linking.step l e m) : LinkInv x ya yb s (es ++ [e]) m := by
  obtain ⟨consumed, sent, hlink, hparty⟩ := hinv
  cases e with
  | sends a =>
    obtain ⟨bytes, next, hscript, rfl⟩ := hstep
    have hown := hscript ▸ hparty a
    refine LinkInv.put hlink hparty (nil_append _).symm ?_
      ⟨rfl, rfl, decide_eq_false (Side.other_ne a)⟩
    simpa [LinkEvent.wrote, LinkEvent.got, LinkEvent.shakes] using hown.sends
  | receives a chunk =>
    obtain ⟨missing, next, rest, hscript, hchunk, hle, htoward, rfl⟩ := hstep
    have hown := hscript ▸ hparty a
    refine LinkInv.put hlink hparty htoward ?_ ⟨rfl, rfl, decide_eq_false (Side.other_ne a)⟩
    have hreceived := hown.receives hx h rest hchunk hle (by
      rw [append_assoc, ← htoward, ← hlink]
      exact (hparty a.other).comparable hx h)
    simpa [LinkEvent.wrote, LinkEvent.got, LinkEvent.shakes] using hreceived
  | finishes a =>
    obtain ⟨stream, infoHash, hscript, rfl⟩ := hstep
    have hown := hscript ▸ hparty a
    refine LinkInv.put hlink hparty (nil_append _).symm ?_
      ⟨rfl, rfl, decide_eq_false (Side.other_ne a)⟩
    simpa [LinkEvent.wrote, LinkEvent.got, LinkEvent.shakes] using hown.finishes hx h
  | writes a bytes =>
    obtain ⟨stream, infoHash, buf, accepted, htalking, rfl, rfl⟩ := hstep
    have hown := htalking ▸ hparty a
    refine LinkInv.put hlink hparty (nil_append _).symm ?_ ⟨if_neg (Side.other_ne a), rfl, rfl⟩
    simpa [LinkEvent.wrote, LinkEvent.got, LinkEvent.shakes] using hown.writes buf accepted
  | reads a bytes =>
    obtain ⟨stream, infoHash, length, inner, rest, htalking, htoward, hnone, -, rfl, rfl⟩ := hstep
    have hown := htalking ▸ hparty a
    refine LinkInv.put hlink hparty htoward ?_ ⟨rfl, if_neg (Side.other_ne a), rfl⟩
    simpa [LinkEvent.wrote, LinkEvent.got, LinkEvent.shakes] using hown.reads hnone

theorem linkInv_of_run (hrun : linking.Run x.start es l) : LinkInv x ya yb s es l := by
  refine LTS.Run.history (I := LinkInv x ya yb s) ?_ hrun ?_
  · exact fun _ _ _ _ hinv hstep => linkInv_step hx h hinv hstep
  · refine ⟨fun _ => [], fun _ => [], fun _ => rfl, fun side => ?_⟩
    refine .shaking [] rfl rfl ⟨_, rfl⟩ rfl ?_ (Nat.zero_le _)
    exact congrArg (Ran.mk _ _) (left_run_nil (x.script side))

theorem PartyInv.not_fail {error : MseError} :
    ¬ PartyInv x ya yb s side written read shakes consumed sent (.shaking (.fail error)) := by
  intro hinv
  cases hinv with
  | shaking _ _ _ hconsumed _ hrun _ =>
    obtain ⟨more, hmore⟩ := hconsumed
    have hall := run_script hx h side
    rw [← hmore, run_append, hrun] at hall
    exact nomatch (Ran.mk.inj hall).2.1

theorem PartyInv.waits_ne (hinv : PartyInv x ya yb s side written read shakes consumed sent
      (.shaking (.read missing next))) :
    ¬ (x.messages ya yb s side.other).flatten <+: consumed := by
  intro hall
  obtain ⟨hbegins, hrun, -⟩ := hinv.waits
  rw [hbegins.eq_of_length (Nat.le_antisymm hbegins.length_le hall.length_le),
    run_script hx h] at hrun
  exact nomatch (Ran.mk.inj hrun).2.1

theorem not_both_wait {consumed sent : Side → List UInt8}
    (hlink : ∀ side, sent side.other = consumed side ++ l.toward side)
    (hparty : ∀ side, PartyInv x ya yb s side (writtenBy side es) (readBy side es)
      (es.countP (LinkEvent.shakes side)) (consumed side) (sent side) (l.party side))
    (hnothing : ∀ side, l.toward side = [])
    (hwait : ∀ side, ∃ missing next, l.party side = .shaking (.read missing next)) : False := by
  have hlink : ∀ side, sent side.other = consumed side := fun side => by
    rw [hlink, hnothing, append_nil]
  have hwaits : ∀ side, consumed side.other = ((x.script side).run (consumed side)).sent.flatten ∧
      ¬ (x.messages ya yb s side.other).flatten <+: consumed side := by
    intro side
    obtain ⟨missing, next, hread⟩ := hwait side
    have hinv := hparty side
    rw [hread] at hinv
    refine ⟨?_, hinv.waits_ne hx h⟩
    rw [← hinv.waits.2.2, ← hlink side.other, Side.other_other]
  -- what an end has written by some point of what it has read, the other has read
  have hheard : ∀ side input msgs, msgs <+: ((x.script side).run input).sent →
      input <+: consumed side → msgs.flatten <+: consumed side.other := by
    intro side input msgs hmsgs hinput
    rw [(hwaits side).1]
    exact (hmsgs.trans (sent_mono _ hinput)).flatten
  obtain ⟨hfirst, hsecond⟩ := initiateWithPads_sends h
  have hhello : ya.toList <+: consumed .responder := by
    have hheard := hheard .initiator [] _ (hfirst.trans (sent_prefix_bind ..)) ⟨_, rfl⟩
    rw [flatten_singleton] at hheard
    exact (prefix_append ..).trans hheard
  have hreply : yb.toList <+: consumed .initiator := by
    have hheard := hheard .responder ya.toList _ (respond_sends hx h) hhello
    rw [flatten_singleton] at hheard
    exact (prefix_append ..).trans hheard
  exact (hwaits .responder).2
    (hheard .initiator yb.toList _ (hsecond.trans (sent_prefix_bind ..)) hreply)

section

variable (hinv : LinkInv x ya yb s es l)

include hinv

theorem exists_shakes {a : Side}
    {script : Exchange (MseStream × Hash20)} (hscript : l.party a = .shaking script) :
    ∃ b e m, e.shakes b = true ∧ linking.step l e m := by
  by_contra hstuck
  obtain ⟨consumed, sent, hlink, hparty⟩ := hinv
  have hwait : ∀ b script, l.party b = .shaking script →
      (∃ missing next, l.party b = .shaking (.read missing next)) ∧ l.toward b = [] := by
    intro b script hscript
    have hown := hparty b
    cases script with
    | done result =>
      exact absurd ⟨b, .finishes b, _, (shakes_self b []).2.2, result.1, result.2, hscript, rfl⟩
          hstuck
    | fail error =>
      rw [hscript] at hown
      exact absurd hown (PartyInv.not_fail hx h)
    | send bytes next =>
      exact absurd ⟨b, .sends b, _, (shakes_self b []).1, bytes, next, hscript, rfl⟩ hstuck
    | read missing next =>
      refine ⟨⟨missing, next, hscript⟩, ?_⟩
      cases htoward : l.toward b with
      | nil => rfl
      | cons byte rest =>
        exact absurd ⟨b, .receives b [byte], _, (shakes_self b [byte]).2.1, missing, next, rest,
          hscript, cons_ne_nil _ _, Nat.le_add_left .., htoward, rfl⟩ hstuck
  obtain ⟨⟨missing, next, hread⟩, hnothing⟩ := hwait a script hscript
  cases hother : l.party a.other with
  | shaking other =>
    obtain ⟨hread', hnothing'⟩ := hwait a.other other hother
    refine not_both_wait hx h hlink hparty (fun b => ?_) fun b => ?_
    · rcases Side.eq_or_eq_other a b with rfl | rfl
      · exact hnothing
      · exact hnothing'
    · rcases Side.eq_or_eq_other a b with rfl | rfl
      · exact ⟨missing, next, hread⟩
      · exact hread'
  | talking stream infoHash =>
    -- the other end has written everything, and nothing is on its way
    have hown := hparty a
    have htalking := hparty a.other
    rw [hread] at hown
    rw [hother] at htalking
    cases htalking with
    | talking _ _ _ hsent =>
      refine hown.waits_ne hx h ?_
      rw [← append_nil (consumed a), ← hnothing, ← hlink, hsent]
      exact prefix_append ..

theorem LinkInv.delivered (side : Side) : readBy side es <+: x.meantFor side es ∧
    ∀ stream infoHash, l.party side = .talking stream infoHash →
      infoHash = x.infoHash ∧ stream.isEncrypted = x.accept.allowRc4 ∧
      (stream.replay = [] → l.toward side = [] → readBy side es = x.meantFor side es) := by
  obtain ⟨consumed, sent, hlink, hparty⟩ := hinv
  have hown := hparty side
  have hother := hparty side.other
  rw [hlink side] at hother
  rw [meantFor_eq x s]
  cases hp : l.party side with
  | shaking script =>
    rw [hp] at hown
    cases hown with
    | shaking _ _ hread =>
      rw [hread]
      exact ⟨⟨_, rfl⟩, nofun⟩
  | talking stream infoHash =>
    rw [hp] at hown
    cases hown with
    | talking taken passed hencrypt hsent hconsumed hdecrypt htaken hreplay hread hcount =>
      rw [hconsumed, append_assoc] at hother
      have hsealed := hother.sealed_of_sent hx h
      rw [← endStream_decrypt] at hsealed
      refine ⟨?_, ?_⟩
      · rw [hread, htaken]
        by_cases hempty : stream.replay = []
        · rw [hempty, append_nil, prefix_append_right_inj]
          exact sealWith_begins (hsealed ▸ prefix_append ..)
        · rw [hreplay hempty, sealWith_nil, append_nil, append_assoc]
          exact prefix_append ..
      · rintro _ _ ⟨⟩
        refine ⟨rfl, ?_, fun hempty hnothing => ?_⟩
        · rw [MseStream.isEncrypted, hencrypt, advance, isSome_map, isSome_encrypt]
        · rw [hnothing, append_nil] at hsealed
          rw [hread, htaken, hempty, hsealed, append_nil, sealWith_sealWith]

theorem LinkInv.countP_shakes_le (side : Side) : es.countP (LinkEvent.shakes side) ≤
      (x.messages ya yb s side.other).flatten.length + (x.messages ya yb s side).length + 1 := by
  obtain ⟨consumed, sent, -, hparty⟩ := hinv
  have hown := hparty side
  cases hp : l.party side with
  | shaking script =>
    rw [hp] at hown
    cases hown with
    | shaking msgs _ _ hconsumed _ hrun hcount =>
      have hmessages := sent_mono (x.script side) hconsumed
      rw [hrun, run_script hx h] at hmessages
      have hmsgs := ((prefix_append msgs _).trans hmessages).length_le
      have hlength := hconsumed.length_le
      dsimp only at hmsgs
      omega
  | talking stream infoHash =>
    rw [hp] at hown
    cases hown with
    | talking _ _ _ _ _ _ _ _ _ hcount => exact hcount

end

end

end Runs

theorem firstAfter_nil (pattern : List UInt8) : FirstAfter [] pattern := fun _ hseen hpattern =>
  hseen.eq_of_length (Nat.le_antisymm hseen.length_le hpattern.length_le)

theorem firstAfter_cons {b : UInt8} {pad pattern : List UInt8} (h : b ∉ pad) :
    FirstAfter pad (b :: pattern) := by
  rintro _ hseen ⟨before, rfl⟩
  have hle := hseen.length_le
  refine hseen.eq_of_length (Nat.le_antisymm hle (Nat.not_lt.1 fun hlt => h ?_))
  simp only [length_append, length_cons] at hlt
  have hget := hseen.getElem (i := before.length) (by simp)
  rw [getElem_append_right le_rfl, getElem_append_left (by omega)] at hget
  simp only [Nat.sub_self, getElem_cons_zero] at hget
  exact hget ▸ getElem_mem _

/-- An exchange with a payload, where the responder knows two torrents and
accepts both methods. -/
def sampleSetting : Setting where
  infoHash := .replicate 20 7
  allowPlaintext := true
  payload := [1, 2, 3]
  initiator := ⟨[1], [8, 9], [4, 5]⟩
  known := [.replicate 20 3, .replicate 20 7]
  accept := ⟨true, true⟩
  responder := ⟨[2], [], [6]⟩
  ahead := 20

theorem sampleSetting_fits : @Setting.Fits .spread sampleSetting := by
  let _ : Digests := .spread
  exact {
    initiator_pad := by decide
    initiator_innerPad := by decide
    responder_pad := by decide
    responder_innerPad := by decide
    payload := by decide
    ahead := by decide
    known := by decide
    common := by decide
    initiator_usable := fun _ hy => usable_of_small hy (by decide) (by decide)
    responder_usable := fun _ hy => usable_of_small hy (by decide) (by decide)
    hash_injective := forall_mem_cons.2 ⟨by decide, forall_mem_singleton.2 fun _ => rfl⟩
    initiator_sync := fun _ _ _ _ => firstAfter_cons (by decide)
    responder_sync := fun _ _ _ _ => firstAfter_nil _ }

end BitTorrent.Mse
