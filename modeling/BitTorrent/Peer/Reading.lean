import BitTorrent.Common.Run
import BitTorrent.Peer.Message

/-!
# Reading message after message

A loop that reads messages from a stream goes on after a read that timed out if it takes that for
a quiet spell.
-/

namespace BitTorrent

open List Message

/-- The byte that arrives, if one does. -/
def Arrival.toByte : Arrival → Option UInt8
  | .byte b => some b
  | .timeout => none

namespace Wire

/-- The bytes of a stream. -/
def bytes (wire : Wire) : List UInt8 := wire.filterMap Arrival.toByte

/-- The bytes before the first timeout. -/
def leading : Wire → List UInt8
  | .byte b :: wire => b :: leading wire
  | _ => []

/-- **A message begins, and stops before its end**: there are bytes before
the next timeout, but fewer than the length in front of them says. -/
def cut (wire : Wire) : Bool :=
  wire.leading ≠ [] && (wire.leading.length < 4 ||
    wire.leading.length < 4 + (be32 wire.leading 0).toNat)

theorem bytes_append (wire rest : Wire) : bytes (wire ++ rest) = bytes wire ++ bytes rest :=
  filterMap_append

theorem bytes_map_byte (bs : List UInt8) : bytes (bs.map .byte) = bs := by
  simp [bytes, filterMap_map, Function.comp_def, Arrival.toByte]

theorem split_leading (wire : Wire) : ∃ rest, wire = wire.leading.map .byte ++ rest ∧
    (rest = [] ∨ ∃ after, rest = .timeout :: after) := by
  induction wire with
  | nil => exact ⟨[], rfl, .inl rfl⟩
  | cons a wire ih =>
    cases a with
    | timeout => exact ⟨.timeout :: wire, rfl, .inr ⟨wire, rfl⟩⟩
    | byte b =>
      obtain ⟨rest, hwire, hrest⟩ := ih
      refine ⟨rest, ?_, hrest⟩
      rw [leading, map_cons, cons_append, ← hwire]

end Wire

variable {m : Message} {wire : Wire} {bs more : List UInt8}

theorem toBytes_ne_nil (m : Message) : m.toBytes ≠ [] := by
  unfold toBytes
  split <;> simp [be32Bytes]

theorem readExact_short {n : ℕ} (hlen : bs.length < n) (after : Wire) :
    readExact n (bs.map .byte ++ .timeout :: after) = (.error .timedOut, after) := by
  induction bs generalizing n with
  | nil =>
    cases n with
    | zero => exact absurd hlen (Nat.not_lt_zero _)
    | succ n => rfl
  | cons b bs ih =>
    cases n with
    | zero => exact absurd hlen (Nat.not_lt_zero _)
    | succ n =>
      rw [map_cons, cons_append, readExact, ih (Nat.lt_of_succ_lt_succ hlen)]
      rfl

theorem readFrom_short (hfits : m.Fits) (hbegins : bs <+: m.toBytes)
    (hlen : bs.length < m.toBytes.length) (after : Wire) :
    readFrom (bs.map .byte ++ .timeout :: after) = (.error (.io .timedOut), after) ∧
      (bs.length < 4 ∨ bs.length < 4 + (be32 bs 0).toNat) := by
  obtain ⟨n, body, hbytes, hn, hmax⟩ := toBytes_frame hfits
  have hfour : (be32Bytes n).length = 4 := rfl
  rw [hbytes] at hbegins hlen
  by_cases hshort : bs.length < 4
  · rw [readFrom, readExact_short hshort]
    exact ⟨rfl, .inl hshort⟩
  · obtain ⟨x, rfl⟩ : be32Bytes n <+: bs :=
      prefix_of_prefix_length_le (prefix_append _ _) hbegins (by omega)
    rw [length_append, length_append] at hlen
    have hhead : be32 (be32Bytes n ++ x) 0 = n := be32_append [] n x
    refine ⟨?_, .inr (by rw [hhead, length_append]; omega)⟩
    rw [map_append, append_assoc, readFrom_length (by omega) (by omega), readExact_short (by omega)]

theorem readFrom_spec (hfits : m.Fits) (hbytes : wire.bytes = m.toBytes ++ more) :
    (∃ after, readFrom wire = (.ok m, after) ∧ after.bytes = more) ∨
    ∃ after, readFrom wire = (.error (.io .timedOut), after) ∧
      (wire.cut = true ∨ after.bytes = wire.bytes) := by
  obtain ⟨rest, hwire, hrest⟩ := wire.split_leading
  have hall : wire.leading ++ Wire.bytes rest = m.toBytes ++ more := by
    rw [← hbytes]
    nth_rewrite 2 [hwire]
    rw [Wire.bytes_append, Wire.bytes_map_byte]
  by_cases hlen : m.toBytes.length ≤ wire.leading.length
  · -- the message is there as a whole
    obtain ⟨x, hx⟩ : m.toBytes <+: wire.leading :=
      prefix_of_prefix_length_le (prefix_append _ _) ⟨_, hall⟩ hlen
    refine .inl ⟨x.map .byte ++ rest, ?_, ?_⟩
    · rw [hwire, ← hx, map_append, append_assoc, readFrom_toBytes hfits]
    · rw [← hx, append_assoc, append_cancel_left_eq] at hall
      rw [Wire.bytes_append, Wire.bytes_map_byte, hall]
  · rw [Nat.not_le] at hlen
    have hbegins : wire.leading <+: m.toBytes :=
      prefix_of_prefix_length_le (hall ▸ prefix_append _ _) (prefix_append _ _) hlen.le
    rcases hrest with rfl | ⟨after, rfl⟩
    · -- there is no end before the end of the message
      have hlength := congrArg length hall
      simp only [Wire.bytes, filterMap_nil, append_nil, length_append] at hlength
      omega
    · obtain ⟨hread, hpart⟩ := readFrom_short hfits hbegins hlen after
      rw [← hwire] at hread
      refine .inr ⟨after, hread, ?_⟩
      by_cases hnone : wire.leading = []
      · right
        rw [hbytes, ← hall, hnone]
        rfl
      · left
        simpa [Wire.cut, hnone] using hpart

theorem readFrom_of_bytes_eq_nil (hbytes : wire.bytes = []) :
    ∃ e after, readFrom wire = (.error e, after) ∧ after.bytes = [] := by
  cases wire with
  | nil => exact ⟨_, _, rfl, rfl⟩
  | cons a wire =>
    cases a with
    | timeout => exact ⟨_, _, rfl, hbytes⟩
    | byte b => cases hbytes

/-- **A loop that reads messages**: what a step reads, if it does, and
where a timeout is sat out. Any other read that fails ends the loop, and
what has ended reads no more. -/
structure Reader (σ ε : Type*) where
  system : LTS σ ε
  read : ε → Option (Except WireError Message)
  sitsOut : σ → ε → Prop
  ended : σ → Prop
  fails : ∀ s e t error, system.step s e t → read e = some (.error error) →
    (error = .io .timedOut ∧ sitsOut s e) ∨ ended t
  stops : ∀ s e t, system.step s e t → ended s → read e = none ∧ ended t

namespace Reader

variable {σ ε : Type*} (R : Reader σ ε)

/-- The loop on a stream: each read is the next of the stream. -/
def overWire : LTS (σ × Wire) ε where
  step s e t := R.system.step s.1 e t.1 ∧
    match R.read e with
    | none => t.2 = s.2
    | some r => Message.readFrom s.2 = (r, t.2)

/-- The message that a step handles, if it does. -/
def handles (e : ε) : List Message :=
  match R.read e with
  | some (.ok m) => [m]
  | _ => []

/-- **The messages handled**, in order. -/
def handled (es : List ε) : List Message := es.flatMap R.handles

/-- **No timeout that is sat out falls inside a message.** -/
def Uncut (s : σ × Wire) (e : ε) (_ : σ × Wire) : Prop :=
  (R.read e).isSome = true → R.sitsOut s.1 e → s.2.cut = false

/-- Along a run: what was handled is what the stream began with, and while
the loop goes on the bytes left are those of the other messages. -/
def Exact (ms : List Message) (es : List ε) (s : σ × Wire) : Prop :=
  ∃ rest, ms = R.handled es ++ rest ∧ (¬ R.ended s.1 → s.2.bytes = rest.flatMap Message.toBytes)

variable {R} {ms : List Message} {es : List ε}

theorem exact_step {s t : σ × Wire} {e : ε} (hfits : ∀ m ∈ ms, m.Fits) (hs : R.Exact ms es s)
    (h : (R.overWire.restrict R.Uncut).step s e t) : R.Exact ms (es ++ [e]) t := by
  obtain ⟨⟨hstep, hwire⟩, huncut⟩ := h
  obtain ⟨rest, hms, hrest⟩ := hs
  -- where no message is read, what was handled stays as it is
  have hquiet : R.handles e = [] → (¬ R.ended t.1 → t.2.bytes = rest.flatMap toBytes) →
      R.Exact ms (es ++ [e]) t := by
    intro hnone hbytes
    refine ⟨rest, ?_, hbytes⟩
    rw [hms, handled, handled, flatMap_append, flatMap_singleton, hnone, append_nil]
  by_cases hended : R.ended s.1
  · obtain ⟨hread, hstopped⟩ := R.stops _ _ _ hstep hended
    exact hquiet (by rw [handles, hread]) fun hgoing => absurd hstopped hgoing
  have hbytes := hrest hended
  cases hread : R.read e with
  | none =>
    rw [hread] at hwire
    exact hquiet (by rw [handles, hread]) fun _ => by rw [hwire, hbytes]
  | some r =>
    rw [hread] at hwire
    cases rest with
    | nil =>
      obtain ⟨error, after, hfrom, hafter⟩ := readFrom_of_bytes_eq_nil hbytes
      obtain ⟨rfl, rfl⟩ := Prod.mk.inj (hfrom.symm.trans hwire)
      exact hquiet (by rw [handles, hread]) fun _ => hafter
    | cons m rest =>
      have hm : m.Fits := hfits m (by simp [hms])
      rcases readFrom_spec hm hbytes with ⟨after, hfrom, hafter⟩ | ⟨after, hfrom, hlost⟩ <;>
        obtain ⟨rfl, rfl⟩ := Prod.mk.inj (hfrom.symm.trans hwire)
      · refine ⟨rest, ?_, fun _ => hafter⟩
        rw [hms, handled, handled, flatMap_append, flatMap_singleton, handles, hread,
          append_assoc, singleton_append]
      · refine hquiet (by rw [handles, hread]) fun hgoing => ?_
        obtain ⟨-, hsits⟩ := (R.fails _ _ _ _ hstep hread).resolve_right hgoing
        have hcut := huncut (by rw [hread]; rfl) hsits
        rw [← hbytes]
        exact hlost.resolve_left (by rw [hcut]; exact Bool.false_ne_true)

variable (R) in
/-- **A stream that was handled as it was sent**, as far as a run has
come. -/
structure Intact (ms : List Message) (wire : Wire) (es : List ε) (t : σ) (wire' : Wire) : Prop where
  /-- What was handled is what the stream begins with. -/
  ordered : R.handled es <+: ms
  /-- While the loop goes on, the bytes gone are those of what was
  handled. -/
  bytes : ¬ R.ended t → wire.bytes = (R.handled es).flatMap Message.toBytes ++ wire'.bytes
  /-- Once they are all gone, everything was handled. -/
  all : ¬ R.ended t → wire'.bytes = [] → R.handled es = ms

theorem intact_of_run {s t : σ} {wire' : Wire}
    (hfits : ∀ m ∈ ms, m.Fits) (hwire : wire.bytes = ms.flatMap toBytes)
    (hrun : (R.overWire.restrict R.Uncut).Run (s, wire) es (t, wire')) :
    R.Intact ms wire es t wire' := by
  have hstart : R.Exact ms [] (s, wire) := ⟨ms, rfl, fun _ => hwire⟩
  obtain ⟨rest, hms, hrest⟩ : R.Exact ms es (t, wire') := by
    refine LTS.Run.history (I := R.Exact ms) ?_ hrun hstart
    exact fun _ _ _ _ hs hstep => exact_step hfits hs hstep
  refine ⟨⟨rest, hms.symm⟩, fun hgoing => ?_, fun hgoing hnone => ?_⟩
  · rw [hwire, hrest hgoing, hms, flatMap_append]
  · have hnil : rest = [] := by
      refine eq_nil_iff_forall_not_mem.2 fun m hm => toBytes_ne_nil m ?_
      rw [hrest hgoing] at hnone
      exact flatMap_eq_nil_iff.1 hnone m hm
    rw [hms, hnil, append_nil]

end Reader

end BitTorrent
