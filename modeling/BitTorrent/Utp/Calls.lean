import BitTorrent.Common.Run
import BitTorrent.Utp.Turns
import Mathlib.Algebra.Order.Field.Rat

/-!
# One connection under any calls

A connection begins as `connect` or `accept` makes it, and is then called in any order: by its
owner, by the clock, and with packets that anyone may have made.
-/

namespace BitTorrent.Utp

/-- A call on a connection. -/
inductive Call
  | write (data : List UInt8)
  | read (len : ℕ)
  | close
  | abort (now : ℕ)
  | flush (now : ℕ)
  | tick (now : ℕ)
  | packet (now : ℕ) (p : Packet)
  | takeOutgoing

namespace Connection

variable {F : Type} [F64 F]

/-- The connection after a call. -/
def call (c : Connection F) : Call → Connection F
  | .write data => (c.write data).1
  | .read len => (c.read len).1
  | .close => c.close
  | .abort now => c.abort now
  | .flush now => c.flush now
  | .tick now => c.onTick now
  | .packet now p => c.onPacket now p
  | .takeOutgoing => c.takeOutgoing.1

/-- A connection as it begins. -/
inductive Starts : Connection F → Prop
  | connect (now : ℕ) (recvId initialSeq : UInt16) : Starts (connectFrom now recvId initialSeq)
  | accept (now : ℕ) (syn : Packet) (initialSeq : UInt16) : Starts (accept now syn initialSeq)

/-- **One connection, as a system.** -/
def calling (F : Type) [F64 F] : LTS (Connection F) Call where
  step c call c' := c' = c.call call

theorem invariant_of_run {I : Connection F → Prop} {c₀ c : Connection F} {calls : List Call}
    (hstart : ∀ c, Starts c → I c) (hcall : ∀ c call, I c → I (c.call call))
    (hc₀ : c₀.Starts) (hrun : (calling F).Run c₀ calls c) : I c := by
  refine hrun.invariant (fun c call c' hc hstep => ?_) (hstart c₀ hc₀)
  obtain rfl : c' = c.call call := hstep
  exact hcall c call hc

/-- **What an owner does** to the core of its connection. -/
inductive Owns : Core → Core → Prop
  | wrote {s : Core} {data : List UInt8} :
      s.state ≠ .ended → s.finPending = false →
      s.outbox.length + (s.inFlight.map fun p => p.payload.length).sum + data.length ≤ sendBuffer ∨
        data = [] →
      Owns s { s with outbox := s.outbox ++ data }
  | read {s : Core} {n : ℕ} {owed : Bool} :
      Owns s { s with inbox := s.inbox.drop n, ackPending := owed }
  | closed {s : Core} : Owns s { s with finPending := true }
  | taken {s : Core} : Owns s { s with outgoing := [] }

variable (c : Connection F)

omit [F64 F] in
theorem owns_write (data : List UInt8) :
    (c.write data).1.core = c.core ∨ Owns c.core (c.write data).1.core := by
  rw [write]
  split
  · exact .inl rfl
  · rename_i hopen
    rw [not_or, Bool.not_eq_true] at hopen
    refine .inr (.wrote hopen.1 hopen.2 ?_)
    rw [← List.length_eq_zero_iff, List.length_take]
    show c.queued + _ ≤ _ ∨ _
    omega

theorem turns_or_owns (call : Call) :
    Core.Turns c.core (c.call call).core ∨ Owns c.core (c.call call).core := by
  cases call with
  | write data =>
    rcases owns_write c data with heq | howns
    · refine .inl ?_
      rw [show (c.call (.write data)).core = _ from heq]
    · exact .inr howns
  | read len => exact .inr .read
  | close => exact .inr .closed
  | abort now => exact .inl (turns_abort now)
  | flush now => exact .inl (sends_flush now).turns
  | tick now =>
    obtain ⟨window, hsends⟩ := turns_onTick now (c := c)
    exact .inl hsends.turns
  | packet now p => exact .inl (turns_onPacket now p)
  | takeOutgoing => exact .inr .taken

theorem core_of_run {I : Core → Prop} {c₀ c : Connection F} {calls : List Call}
    (hstart : ∀ c : Connection F, c.Starts → I c.core) (hturn : ∀ s t, I s → Core.Turn s t → I t)
    (howns : ∀ s t, I s → Owns s t → I t) (hc₀ : c₀.Starts)
    (hrun : (calling F).Run c₀ calls c) : I c.core := by
  refine invariant_of_run (I := fun c => I c.core) hstart (fun c call hc => ?_) hc₀ hrun
  rcases turns_or_owns c call with hturns | hown
  · exact hturns.invariant hturn hc
  · exact howns _ _ hc hown

theorem run_foldl (calls : List Call) : (calling F).Run c calls (calls.foldl call c) :=
  LTS.run_of_foldl (fun _ _ => rfl) c calls

end Connection

/-- Exact arithmetic, for runs on fixed inputs in which `f64` would round
nothing. -/
instance ratF64 : F64 ℚ where
  ofRat x := x
  add x y := x + y
  sub x y := x - y
  mul x y := x * y
  div x y := x / y
  min x y := if x ≤ y then x else y
  max x y := if x ≤ y then y else x
  lt x y := x < y
  le x y := x ≤ y
  maxValue := 2 ^ 1024 - 2 ^ 971
  toUsize x := x.floor.toNat

end BitTorrent.Utp
