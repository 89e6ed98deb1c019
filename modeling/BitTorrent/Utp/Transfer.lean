import BitTorrent.Common.Circle
import BitTorrent.Utp.Turns

/-!
# One direction of a transfer

Everything an end puts in flight, in order, is its log: what it carries never changes, and its
numbers are consecutive from some number on, counted here without wrapping.
-/

namespace BitTorrent.Utp

open Streams Circular List Option Connection

theorem seqLe_ofNat_of_le {m n : ℕ} (h : m ≤ n) (hn : n < m + halfCircle) :
    seqLe (.ofNat m) (.ofNat n) = true := by
  simp only [halfCircle] at hn
  have hsub := toNat_sub_of_le h (by omega)
  simp only [seqLe, decide_eq_true_eq, UInt16.lt_iff_toNat_lt, hsub]
  exact (by omega : n - m < 32768)

theorem seqLe_ofNat_of_lt {m n : ℕ} (h : n < m) (hm : m ≤ n + halfCircle) :
    seqLe (.ofNat m) (.ofNat n) = false := by
  simp only [halfCircle] at hm
  have hsub := toNat_sub_of_lt h (by omega)
  simp only [seqLe, decide_eq_false_iff_not, UInt16.lt_iff_toNat_lt, hsub]
  exact (by omega : ¬ 65536 - (m - n) < 32768)

/-- The bytes a log carries. -/
def payloads (log : List Item) : List UInt8 :=
  log.flatMap Item.payload

@[simp] theorem payloads_append (log new : List Item) :
    payloads (log ++ new) = payloads log ++ payloads new := by
  simp [payloads]

@[simp] theorem payloads_singleton (item : Item) : payloads [item] = item.payload := by
  simp [payloads]

variable {item : Item} {log : List Item}

theorem payloads_take_succ {r : ℕ} (h : log[r]? = some item) :
    payloads (log.take (r + 1)) = payloads (log.take r) ++ item.payload := by
  rw [take_add_one, h, payloads_append]
  simp

/-- **A packet of the log**, at a position not before `k`: one that only
says how far the sender has got, or one that carries what is there. -/
def OfLog (base : ℕ) (log : List Item) (k : ℕ) (p : Packet) : Prop :=
  ∃ i, k ≤ i ∧ i ≤ log.length ∧ p.seqNr = .ofNat (base + i) ∧
    (p.kind = .state ∨ log[i]? = some ⟨p.kind, p.payload⟩)

/-- **The sender of a log** numbered from `base`, all but the first `k` of
it in flight, given `written` to send. What it takes the peer to hold is
so: `has` says of a place in the log whether the peer has it. -/
structure Sender (base : ℕ) (log : List Item) (k : ℕ) (has : ℕ → Prop) (written : List UInt8)
    (s : Sending) : Prop where
  seqNr : s.seqNr = .ofNat (base + log.length)
  flight : s.flight.map Flying.numbered = (numbered base log).drop k
  le : k ≤ log.length
  sacked : ∀ (j : ℕ) (x : Flying), s.flight[j]? = some x → x.sacked = true → has (k + j)
  written : payloads log ++ s.outbox = written
  kinds : ∀ x ∈ log, x.kind = .data ∨ x.kind = .fin ∨ x.kind = .syn
  /-- The FIN goes after everything else, and nothing goes after it. -/
  finSent : s.finSent = true → s.outbox = [] ∧ s.finPending = true
  fin : ∀ i x, log[i]? = some x → x.kind = .fin → s.finSent = true ∧ i + 1 = log.length
  connecting : s.state = .connecting → log = [⟨.syn, []⟩] ∧ k = 0
  outgoing : ∀ p ∈ s.outgoing, OfLog base log k p

namespace Sender

variable {base k : ℕ} {log new : List Item} {has has' : ℕ → Prop} {written : List UInt8}
  {s t : Streams} {p : Packet}

theorem ofLog_append (h : OfLog base log k p) : OfLog base (log ++ new) k p := by
  obtain ⟨i, hk, hi, hseq, hkind⟩ := h
  refine ⟨i, hk, by rw [length_append]; omega, hseq, hkind.imp_right fun hitem => ?_⟩
  rw [getElem?_append_left (List.getElem?_eq_some_iff.1 hitem).1, hitem]

section

variable (h : Sender base log k has written s.toSending)

include h

theorem length_flight : s.flight.length = log.length - k := by
  rw [← length_map Flying.numbered, h.flight, length_drop, length_numbered]

theorem mono (hhas : ∀ i, has i → has' i) : Sender base log k has' written s.toSending :=
  { h with sacked := fun j x hx hsacked => hhas _ (h.sacked j x hx hsacked) }

theorem put (hp : OfLog base log k p) : Sender base log k has written (s.put p).toSending where
  seqNr := h.seqNr
  flight := h.flight
  le := h.le
  sacked := h.sacked
  written := h.written
  kinds := h.kinds
  finSent := h.finSent
  fin := h.fin
  connecting := h.connecting
  outgoing := forall_mem_append.2 ⟨h.outgoing, forall_mem_singleton.2 (by assumption)⟩

theorem launch (hopen : s.state = .opened) (hunsent : s.finSent = false)
    {outbox : List UInt8} {finSent : Bool} (hbytes : item.payload ++ outbox = s.outbox)
    (hkind : item.kind = .data ∨ item.kind = .fin)
    (hsent : finSent = true → outbox = [] ∧ s.finPending = true)
    (hlast : item.kind = .fin → finSent = true) :
    Sender base (log ++ [item]) k has written
      ({ s with outbox := outbox, finSent := finSent }.launch item).toSending where
  seqNr := by
    simp only [Streams.launch, length_append, length_singleton, h.seqNr, ofNat_add_one]
    rfl
  flight := by
    rw [numbered_append_singleton, drop_append_of_le_length (by simpa using h.le), ← h.flight,
      ← h.seqNr]
    simp [Streams.launch, Flying.numbered]
  sacked j x hx hsacked := by
    -- what has just been sent is not known to have arrived
    rcases Nat.lt_or_ge j s.flight.length with hlt | hge
    · exact h.sacked j x (by rwa [← getElem?_append_left hlt]) hsacked
    · rw [Streams.launch, getElem?_append_right hge] at hx
      rw [mem_singleton.1 (mem_of_getElem? hx)] at hsacked
      contradiction
  le := by
    have := h.le
    simp only [length_append]
    omega
  written := by
    rw [← h.written, ← hbytes]
    simp [Streams.launch]
  kinds := forall_mem_append.2 ⟨h.kinds, forall_mem_singleton.2 (hkind.imp_right .inl)⟩
  finSent := hsent
  fin i x hx hfin := by
    rcases Nat.lt_or_ge i log.length with hlt | hge
    · -- had the FIN been in the log before, it would have been sent before
      rw [getElem?_append_left hlt] at hx
      have := (h.fin i x hx hfin).1
      rw [hunsent] at this
      contradiction
    · have hi := (List.getElem?_eq_some_iff.1 hx).1
      rw [length_append, length_singleton] at hi
      obtain rfl : i = log.length := by omega
      rw [getElem?_concat_length, some_inj] at hx
      exact ⟨hlast (hx ▸ hfin), by simp⟩
  connecting hconn := by
    rw [show _ = ConnState.opened from hopen] at hconn
    contradiction
  outgoing p hp := ofLog_append (h.outgoing p hp)

theorem move (hmove : Move s t) : ∃ new, (s.state ≠ .opened → new = []) ∧
      Sender base (log ++ new) k has written t.toSending := by
  -- where the next packet belongs, once its item is in the log
  have hnext : ∀ {item : Item} {p : Packet}, s.Stamps s.seqNr item p →
      OfLog base (log ++ [item]) k p := fun hp =>
    ⟨log.length, h.le, by simp, by rw [hp.seqNr, h.seqNr],
      .inr (by rw [getElem?_concat_length, hp.kind, hp.payload])⟩
  cases hmove with
  | again hx hp =>
    have hmem := mem_map_of_mem (f := Flying.numbered) hx
    rw [h.flight] at hmem
    obtain ⟨i, hk, hi, hseq⟩ := mem_drop_numbered hmem
    refine ⟨[], fun _ => rfl, ?_⟩
    rw [append_nil]
    refine h.put ⟨i, hk, (List.getElem?_eq_some_iff.1 hi).1.le, hp.seqNr.trans hseq, .inr ?_⟩
    rw [hi, hp.kind, hp.payload]
    rfl
  | @data n p hopen hne hp =>
    have hunsent : s.finSent = false := by
      by_contra hsent
      exact hne (h.finSent (by simpa using hsent)).1
    refine ⟨[_], fun hnot => absurd hopen hnot, put ?_ (hnext hp)⟩
    exact h.launch hopen hunsent (take_append_drop n _) (.inl rfl)
      (fun hsent => by rw [hunsent] at hsent; contradiction) (fun hfin => by contradiction)
  | @fin p hopen hempty hpending hunsent hp =>
    refine ⟨[_], fun hnot => absurd hopen hnot, put ?_ (hnext hp)⟩
    exact h.launch hopen hunsent (nil_append _) (.inr rfl) (fun _ => ⟨hempty, hpending⟩)
      fun _ => rfl
  | state _ _ hp =>
    refine ⟨[], fun _ => rfl, ?_⟩
    rw [append_nil]
    exact h.put ⟨log.length, h.le, le_rfl, by rw [hp.seqNr, h.seqNr], .inl hp.kind⟩
  | syn hconn hp =>
    obtain ⟨rfl, rfl⟩ := h.connecting hconn
    refine ⟨[], fun _ => rfl, ?_⟩
    rw [append_nil]
    refine h.put ⟨0, le_rfl, Nat.zero_le _, ?_, .inr (by rw [hp.kind, hp.payload]; rfl)⟩
    rw [hp.seqNr, h.seqNr]
    exact ofNat_add_one_sub_one base
  | ended _ =>
    refine ⟨[], fun _ => rfl, ?_⟩
    rw [append_nil]
    exact { h with connecting := fun hconn => by contradiction }

theorem moves (hmoves : Moves s t) : ∃ new, (s.state ≠ .opened → new = [] ∧ t.state ≠ .opened) ∧
      Sender base (log ++ new) k has written t.toSending := by
  induction hmoves with
  | refl => exact ⟨[], fun hnot => ⟨rfl, hnot⟩, by rwa [append_nil]⟩
  | tail _ hmove ih =>
    obtain ⟨new, hnew, hs⟩ := ih
    obtain ⟨more, hmore, ht⟩ := hs.move hmove
    refine ⟨new ++ more, fun hnot => ?_, by rwa [← append_assoc]⟩
    obtain ⟨hnil, hstill⟩ := hnew hnot
    exact ⟨by rw [hnil, hmore hstill]; rfl, hmove.state_ne_opened hstill⟩

theorem acked (hopen : s.state ≠ .connecting) (hdrained : s.outgoing = []) {n : ℕ}
    (hn : n < base + log.length) (hlate : base + k < n + halfCircle)
    (hfew : log.length < k + halfCircle) :
    ∃ k', k ≤ k' ∧ (k' = k ∨ base + k' = n + 1) ∧
      Sender base log k' has written (s.acked (.ofNat n)).toSending := by
  rw [Streams.acked]
  split
  · exact ⟨k, le_rfl, .inl rfl, h⟩
  · have hhalf : 0 < halfCircle := by simp [halfCircle]
    have hle := h.le
    have hflight : (s.flight.dropWhile fun x => seqLe x.seq (.ofNat n)).map Flying.numbered =
        (numbered base log).drop (max k (n + 1 - base)) := by
      have hmap := dropWhile_map (p := fun y : UInt16 × Item => seqLe y.1 (.ofNat n))
        (f := Flying.numbered) (l := s.flight)
      rw [h.flight] at hmap
      refine hmap.symm.trans ?_
      refine dropWhile_numbered (P := fun x => seqLe x (.ofNat n)) (le_max_left _ _)
        (fun i hi hik => ?_) fun _ => ?_
      · exact seqLe_ofNat_of_le (by omega) (by omega)
      · exact seqLe_ofNat_of_lt (by omega) (by omega)
    refine ⟨max k (n + 1 - base), le_max_left _ _, by omega, ?_⟩
    exact { h with
        flight := hflight
        le := by omega
        sacked := fun j x hx hsacked => by
          -- a packet that stays keeps its place in the log
          have hlen := congrArg length hflight
          rw [length_map, length_drop, length_numbered] at hlen
          have hdrop := suffix_iff_eq_drop.1 (dropWhile_suffix
            (fun x : Flying => seqLe x.seq (.ofNat n)) (l := s.flight))
          rw [hlen, h.length_flight] at hdrop
          rw [show _ = drop _ s.flight from hdrop, getElem?_drop] at hx
          have := h.sacked _ x hx hsacked
          rwa [show k + (log.length - k - (log.length - max k (n + 1 - base)) + j) =
            max k (n + 1 - base) + j by omega] at this
        connecting := fun hconn => absurd hconn hopen
        outgoing := fun p hp => by
          rw [show _ = [] from hdrained] at hp
          contradiction }

theorem marked {seqs : List UInt16} {flight : List Flying} (hmarked : Marked seqs s.flight flight)
    (hseqs : ∀ seq ∈ seqs, ∃ i, seq = .ofNat (base + i) ∧ log.length < i + 65536 ∧
      i < k + 65536 ∧ has i) :
    Sender base log k has written ({ s with flight := flight }).toSending :=
  { h with
    flight := hmarked.1.trans h.flight
    sacked := fun j x hx hsacked => by
      obtain ⟨y, hy, hwas | hnow⟩ := hmarked.2 j x hx hsacked
      · exact h.sacked j y hy hwas
      · obtain ⟨i, hseq, hlo, hhi, hhas⟩ := hseqs _ hnow
        -- the number at place `j` of the flight is that of place `k + j` of the log
        have hplace := congrArg (·[j]?) (hmarked.1.trans h.flight)
        simp only [getElem?_map, hx, map_some, getElem?_drop, getElem?_numbered] at hplace
        obtain ⟨item, hitem, hnumber⟩ := map_eq_some_iff.1 hplace.symm
        have hlt := (List.getElem?_eq_some_iff.1 hitem).1
        have hsame : UInt16.ofNat (base + (k + j)) = .ofNat (base + i) :=
          (congrArg Prod.fst hnumber).trans hseq
        rw [ofNat_inj (by omega) (by omega)] at hsame
        rwa [show k + j = i by omega] }

theorem ackedBy (hopen : s.state ≠ .connecting)
    (hdrained : s.outgoing = []) {n : ℕ} (hp : p.ackNr = .ofNat n)
    (hn : n < base + log.length) (hlate : base + k < n + halfCircle)
    (hfew : log.length < k + halfCircle)
    (hsack : ∀ seq ∈ sackedNumbers p.ackNr p.sack, ∃ i, seq = .ofNat (base + i) ∧
      n < base + i ∧ base + i < n + halfCircle ∧ has i)
    (hacked : AckedBy p s t) :
    ∃ k', (k' = k ∨ base + k' = n + 1) ∧ Sender base log k' has written t.toSending := by
  obtain ⟨flight, hmarked, rfl⟩ := hacked
  rw [hp] at hmarked ⊢
  obtain ⟨k', hle, hk', hs⟩ := h.acked hopen hdrained hn hlate hfew
  have hhalf : halfCircle = 32768 := rfl
  have hbound := hs.le
  refine ⟨k', hk', hs.marked hmarked fun seq hseq => ?_⟩
  obtain ⟨i, rfl, hlo, hhi, hhas⟩ := hsack seq (by rwa [hp])
  exact ⟨i, rfl, by omega, by omega, hhas⟩

end

variable {c : Connection F} {F : Type}

section

variable (h : Sender base log k has written c.streams.toSending)

include h

theorem write (data : List UInt8) : Sender base log k has (written ++ data.take (c.write data).2)
      (c.write data).1.streams.toSending := by
  rw [Connection.write]
  split
  · simpa using h
  · rename_i hopen
    have hunsent : ¬ c.finSent = true := fun hsent => hopen (.inr (h.finSent hsent).2)
    exact { h with
        written := by simp [← h.written, streams]
        finSent := fun hsent => absurd hsent hunsent }

theorem close : Sender base log k has written c.close.streams.toSending :=
  { h with finSent := fun hsent => ⟨(h.finSent hsent).1, rfl⟩ }

theorem read (len : ℕ) : Sender base log k has written (c.read len).1.streams.toSending :=
  { h with }

end

end Sender

/-- **Packets held out of order**: each is of the log, at a position from
`lo` on and before `hi`. -/
def Held (base : ℕ) (log : List Item) (lo hi : ℕ)
    (reorder : AList fun _ : UInt16 => List UInt8) : Prop :=
  ∀ key payload, reorder.lookup key = some payload →
    ∃ i item, lo ≤ i ∧ i < hi ∧ log[i]? = some item ∧ key = .ofNat (base + i) ∧
      payload = item.payload

/-- **The receiver of a log** numbered from `base`, the first `r` of it
received in order and `got` of their bytes read, holding packets from
`lo` on. -/
structure ReceiverFrom (base : ℕ) (log : List Item) (r lo : ℕ) (got : List UInt8) (q : Receiving) :
    Prop where
  ackNr : q.ackNr = .ofNat (base + r - 1)
  le : r ≤ log.length
  bytes : got ++ q.inbox = payloads (log.take r)
  held : Held base log lo (r + 64) q.reorder
  finSeq : ∀ f, q.finSeq = some f → ∃ i item, r ≤ i + 1 ∧ i < r + 64 ∧
    log[i]? = some item ∧ item.kind = .fin ∧ f = .ofNat (base + i)
  closed : q.peerClosed = true → ∃ i item, r = i + 1 ∧ log[i]? = some item ∧ item.kind = .fin

/-- The receiver between packets: the next one is missing, or it would
have been received. -/
abbrev Receiver (base : ℕ) (log : List Item) (r : ℕ) (got : List UInt8) (q : Receiving) : Prop :=
  ReceiverFrom base log r (r + 1) got q

/-- Nothing has been received. -/
structure Receiving.Fresh (q : Receiving) : Prop where
  inbox : q.inbox = []
  reorder : q.reorder = ∅
  finSeq : q.finSeq = none
  peerClosed : q.peerClosed = false

theorem Receiving.Fresh.receiver {q : Receiving} {base r : ℕ} (h : q.Fresh)
    (hack : q.ackNr = .ofNat (base + r - 1)) (hr : r ≤ log.length)
    (hbytes : payloads (log.take r) = []) : Receiver base log r [] q := by
  refine ⟨hack, hr, by rw [h.inbox, hbytes]; rfl, ?_, ?_, ?_⟩
  · intro key payload hkey
    rw [h.reorder] at hkey
    contradiction
  · intro f hf
    rw [h.finSeq] at hf
    contradiction
  · intro hclosed
    rw [h.peerClosed] at hclosed
    contradiction

/-- Nothing follows a FIN. -/
def FinLast (log : List Item) : Prop :=
  ∀ i item, log[i]? = some item → item.kind = .fin → i + 1 = log.length

variable {reorder : AList fun _ : UInt16 => List UInt8}

theorem Held.lt_of_lookup_eq_none {base r hi : ℕ} (h : Held base log r hi reorder)
    (hnone : reorder.lookup (.ofNat (base + r)) = none) : Held base log (r + 1) hi reorder := by
  intro key payload hkey
  obtain ⟨i, item, hlo, hhi, hitem, rfl, rfl⟩ := h key payload hkey
  refine ⟨i, item, ?_, hhi, hitem, rfl, rfl⟩
  rcases Nat.eq_or_lt_of_le hlo with rfl | hlt
  · rw [hnone] at hkey
    contradiction
  · exact hlt

/-- **What the receiver has**: what it has received in order, and what it
holds. -/
def Has (base r : ℕ) (q : Receiving) (i : ℕ) : Prop :=
  i < r ∨ i < r + 64 ∧ (q.reorder.lookup (.ofNat (base + i))).isSome = true

theorem Has.succ {base r i : ℕ} {q q' : Receiving} (h : Has base r q i)
    (hkeep : ∀ i, r < i → i < r + 64 → (q.reorder.lookup (.ofNat (base + i))).isSome = true →
      (q'.reorder.lookup (.ofNat (base + i))).isSome = true) :
    Has base (r + 1) q' i := by
  rcases h with hlt | ⟨hnear, hlookup⟩
  · exact .inl (by omega)
  · rcases Nat.lt_or_ge i (r + 1) with hlt | hge
    · exact .inl hlt
    · exact .inr ⟨by omega, hkeep i (by omega) hnear hlookup⟩

namespace ReceiverFrom

variable {base r lo i : ℕ} {log new : List Item} {got : List UInt8} {q : Receiving}

section

variable (h : ReceiverFrom base log r lo got q)

include h

theorem append : ReceiverFrom base (log ++ new) r lo got q := by
  have hget : ∀ {i : ℕ} {item : Item}, log[i]? = some item → (log ++ new)[i]? = some item :=
    fun hi => by rw [getElem?_append_left (List.getElem?_eq_some_iff.1 hi).1, hi]
  refine ⟨h.ackNr, h.le.trans (by simp), ?_, ?_, ?_, ?_⟩
  · rw [h.bytes, take_append_of_le_length h.le]
  · intro key payload hkey
    obtain ⟨i, item, hlo, hhi, hitem, hrest⟩ := h.held key payload hkey
    exact ⟨i, item, hlo, hhi, hget hitem, hrest⟩
  · intro f hf
    obtain ⟨i, item, hlo, hhi, hitem, hrest⟩ := h.finSeq f hf
    exact ⟨i, item, hlo, hhi, hget hitem, hrest⟩
  · intro hclosed
    obtain ⟨i, item, hi, hitem, hfin⟩ := h.closed hclosed
    exact ⟨i, item, hi, hget hitem, hfin⟩

theorem ahead_spec (hbase : 0 < base) (hlate : r ≤ i + halfCircle) (hnear : i < r + halfCircle)
    (hahead : ¬ (UInt16.ofNat (base + i) - q.ackNr = 0 ∨
      reorderWindow < UInt16.ofNat (base + i) - q.ackNr)) :
    r ≤ i ∧ i < r + 64 ∧ (UInt16.ofNat (base + i) - q.ackNr = 1 ↔ i = r) := by
  simp only [halfCircle] at hlate hnear
  rw [not_or] at hahead
  obtain ⟨hne, hnot⟩ := hahead
  rw [h.ackNr] at hne hnot ⊢
  simp only [reorderWindow, UInt16.lt_iff_toNat_lt] at hnot
  change ¬ 64 < _ at hnot
  rcases Nat.lt_or_ge i r with hlt | hge
  · exfalso
    rcases Nat.eq_or_lt_of_le (Nat.succ_le_of_lt hlt) with heq | hlt'
    · apply hne
      rw [show base + r - 1 = base + i by omega, UInt16.sub_self]
    · have hsub := toNat_sub_of_lt (m := base + i) (n := base + r - 1) (by omega) (by omega)
      omega
  · have hsub := toNat_sub_of_le (m := base + i) (n := base + r - 1) (by omega) (by omega)
    refine ⟨hge, by omega, ?_⟩
    rw [← UInt16.toNat_inj, hsub]
    change _ = 1 ↔ _
    omega

theorem advance (hlast : FinLast log) (hitem : log[r]? = some item)
    (hheld : Held base log (r + 1) (r + 64) reorder) :
    ReceiverFrom base log (r + 1) (r + 1) got { q with
        ackNr := .ofNat (base + r)
        inbox := q.inbox ++ item.payload
        reorder := reorder } := by
  have hlt := (List.getElem?_eq_some_iff.1 hitem).1
  refine ⟨rfl, hlt, ?_, ?_, ?_, ?_⟩
  · rw [payloads_take_succ hitem, ← h.bytes, append_assoc]
  · intro key payload hkey
    obtain ⟨i, x, hlo, hhi, hrest⟩ := hheld key payload hkey
    exact ⟨i, x, hlo, by omega, hrest⟩
  · -- the FIN is last, so it is not behind what is received
    intro f hf
    obtain ⟨i, x, hlo, hhi, hx, hfin, rfl⟩ := h.finSeq f hf
    have := hlast i x hx hfin
    exact ⟨i, x, by omega, by omega, hx, hfin, rfl⟩
  · intro hclosed
    obtain ⟨i, x, hi, hx, hfin⟩ := h.closed hclosed
    have := hlast i x hx hfin
    omega

theorem sawFin (hitem : log[i]? = some item)
    (hfin : item.kind = .fin) (hlo : r ≤ i) (hhi : i < r + 64) :
    ReceiverFrom base log r lo got { q with finSeq := some (.ofNat (base + i)) } :=
  { h with
    finSeq := fun f hf => by
      cases hf
      exact ⟨i, item, by omega, hhi, hitem, hfin, rfl⟩ }

end

theorem hold (h : Receiver base log r got q) (hitem : log[i]? = some item)
    (hlo : r < i) (hhi : i < r + 64) :
    Receiver base log r got
      { q with reorder := q.reorder.insert (.ofNat (base + i)) item.payload } :=
  { h with
    held := fun key payload hkey => by
      by_cases heq : key = .ofNat (base + i)
      · subst heq
        rw [AList.lookup_insert, some_inj] at hkey
        exact ⟨i, item, hlo, hhi, hitem, rfl, hkey.symm⟩
      · rw [AList.lookup_insert_ne heq] at hkey
        exact h.held key payload hkey }

theorem close (h : ReceiverFrom base log r lo got q) (hbase : 0 < base)
    (hfin : q.finSeq = some q.ackNr) :
    ReceiverFrom base log r lo got { q with peerClosed := true } :=
  { h with
    closed := fun _ => by
      obtain ⟨i, item, hlo, hhi, hitem, hkind, hseq⟩ := h.finSeq _ hfin
      rw [h.ackNr, ofNat_inj (by omega) (by omega)] at hseq
      exact ⟨i, item, by omega, hitem, hkind⟩ }

variable {F : Type} {c : Connection F}

theorem read (h : ReceiverFrom base log r lo got c.streams.toReceiving) (len : ℕ) :
    ReceiverFrom base log r lo (got ++ (c.read len).2) (c.read len).1.streams.toReceiving :=
  { h with
    bytes := by
      rw [← h.bytes, append_assoc]
      exact congrArg (got ++ ·) (take_append_drop _ _) }

theorem takeHeld (hbase : 0 < base) (hlast : FinLast log) (fuel : ℕ)
    (h : ReceiverFrom base log r r got c.streams.toReceiving)
    (hfuel : c.reorder.keys.length ≤ fuel) :
    ∃ r', r ≤ r' ∧ Receiver base log r' got (takeHeld fuel c).streams.toReceiving ∧
      ∀ i, Has base r c.streams.toReceiving i →
        Has base r' (takeHeld fuel c).streams.toReceiving i := by
  have hnext : c.ackNr + 1 = .ofNat (base + r) := by
    rw [show c.ackNr = _ from h.ackNr, ofNat_add_one]
    congr 1
    omega
  induction fuel generalizing c r with
  | zero =>
    have hnone : c.reorder.lookup (.ofNat (base + r)) = none := by
      rw [AList.lookup_eq_none, AList.mem_keys, length_eq_zero_iff.1 (Nat.le_zero.1 hfuel)]
      exact not_mem_nil
    exact ⟨r, le_rfl, { h with held := h.held.lt_of_lookup_eq_none hnone }, fun i hi => hi⟩
  | succ fuel ih =>
    rw [takeHeld, hnext]
    split
    · exact ⟨r, le_rfl, { h with held := h.held.lt_of_lookup_eq_none ‹_› }, fun i hi => hi⟩
    · rename_i payload hlookup
      -- the packet held under the next number is the next of the log
      obtain ⟨i, item, hlo, hhi, hitem, hkey, rfl⟩ := h.held _ _ hlookup
      rw [ofNat_inj (by omega) (by omega)] at hkey
      obtain rfl : r = i := by omega
      have herase : Held base log (r + 1) (r + 64) (c.reorder.erase (.ofNat (base + r))) := by
        refine Held.lt_of_lookup_eq_none (fun key payload hkey => ?_) (AList.lookup_erase _ _)
        by_cases heq : key = .ofNat (base + r)
        · rw [heq, AList.lookup_erase] at hkey
          contradiction
        · exact h.held key payload (by rwa [AList.lookup_erase_ne heq] at hkey)
      have hmem : UInt16.ofNat (base + r) ∈ c.reorder.keys := by
        rw [← AList.mem_keys, ← AList.lookup_isSome, hlookup]
        rfl
      have hlen : (c.reorder.erase (.ofNat (base + r))).keys.length ≤ fuel := by
        rw [AList.keys_erase, length_erase_of_mem hmem]
        omega
      obtain ⟨r', hr, hdone, hhas⟩ := ih (c := { c with
        reorder := c.reorder.erase (.ofNat (base + r))
        reorderBytes := c.reorderBytes - item.payload.length
        inbox := c.inbox ++ item.payload
        ackNr := .ofNat (base + r) }) (h.advance hlast hitem herase) hlen (ofNat_add_one _)
      refine ⟨r', by omega, hdone, fun i hi => hhas i (hi.succ fun i hlt hnear hsome => ?_)⟩
      -- only the packet that was next is gone
      have hkeys : UInt16.ofNat (base + i) ≠ .ofNat (base + r) := by
        rw [ne_eq, ofNat_inj (by omega) (by omega)]
        omega
      change ((c.reorder.erase (.ofNat (base + r))).lookup _).isSome = true
      rwa [AList.lookup_erase_ne hkeys]

variable {packet : Packet}

theorem place (hbase : 0 < base) (hlast : FinLast log)
    (h : Receiver base log r got c.streams.toReceiving) {ahead : UInt16}
    (hitem : log[i]? = some ⟨packet.kind, packet.payload⟩)
    (hseq : packet.seqNr = .ofNat (base + i)) (hlo : r ≤ i) (hhi : i < r + 64)
    (hahead : ahead = 1 ↔ i = r) :
    ∃ r', r ≤ r' ∧ Receiver base log r' got (c.place ahead packet).streams.toReceiving ∧
      ∀ i, Has base r c.streams.toReceiving i →
        Has base r' (c.place ahead packet).streams.toReceiving i := by
  rw [Connection.place]
  split
  · obtain rfl := hahead.1 ‹_›
    have hnext := h.advance hlast hitem fun key payload hkey => h.held key payload hkey
    rw [← hseq] at hnext
    obtain ⟨r', hr, hdone, hhas⟩ := takeHeld hbase hlast c.reorder.keys.length
      (c := { c with inbox := c.inbox ++ packet.payload, ackNr := packet.seqNr }) hnext le_rfl
    exact ⟨r', by omega, hdone, fun i hi => hhas i (hi.succ fun _ _ _ hsome => hsome)⟩
  · rename_i hne
    have hlt : r < i := by
      have : i ≠ r := fun heq => hne (hahead.2 heq)
      omega
    split
    · have hheld := h.hold hitem hlt hhi
      rw [← hseq] at hheld
      refine ⟨r, le_rfl, hheld, fun j hj => hj.imp_right fun hkept => ⟨hkept.1, ?_⟩⟩
      change ((c.reorder.insert packet.seqNr packet.payload).lookup _).isSome = true
      rw [AList.lookup_isSome, AList.mem_insert]
      exact .inr (AList.lookup_isSome.1 hkept.2)
    · exact ⟨r, le_rfl, h, fun i hi => hi⟩

theorem receive (hbase : 0 < base) (hlast : FinLast log)
    (h : Receiver base log r got c.streams.toReceiving)
    (hitem : log[i]? = some ⟨packet.kind, packet.payload⟩)
    (hseq : packet.seqNr = .ofNat (base + i)) (hlate : r ≤ i + halfCircle)
    (hfew : log.length ≤ r + halfCircle) :
    ∃ r', r ≤ r' ∧ Receiver base log r' got (c.receive packet).streams.toReceiving ∧
      ∀ i, Has base r c.streams.toReceiving i →
        Has base r' (c.receive packet).streams.toReceiving i := by
  have hlt := (List.getElem?_eq_some_iff.1 hitem).1
  simp only [Connection.receive]
  split
  · exact ⟨r, le_rfl, h, fun i hi => hi⟩
  · rename_i hahead
    rw [hseq] at hahead
    obtain ⟨hlo, hhi, hone⟩ := h.ahead_spec hbase hlate (by omega) hahead
    split
    · exact ⟨r, le_rfl, h, fun i hi => hi⟩
    · have hfin : Receiver base log r got (c.oweAck.noteFin packet).streams.toReceiving := by
        rw [noteFin]
        split
        · rw [hseq]
          exact h.sawFin hitem ‹_› hlo hhi
        · exact h
      have hheld : (c.oweAck.noteFin packet).streams.reorder = c.streams.reorder := by
        rw [noteFin]
        split <;> rfl
      rw [← hseq] at hone
      obtain ⟨r', hr, hplaced, hhas⟩ := place hbase hlast hfin hitem hseq hlo hhi hone
      simp only [Has, hheld] at hhas
      refine ⟨r', hr, ?_⟩
      rw [noteClosed]
      split
      · exact ⟨hplaced.close hbase ‹_›, hhas⟩
      · exact ⟨hplaced, hhas⟩

end ReceiverFrom

end BitTorrent.Utp
