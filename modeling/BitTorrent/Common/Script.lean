import Mathlib.Data.List.Basic

/-!
# Scripts

A program that talks over a byte stream: it writes, and it waits for a number of bytes, which come
in pieces.
-/

namespace BitTorrent

open List

/-- **A program that writes and reads**, and ends in a result or an error. -/
inductive Script (ε α : Type)
  | done (result : α)
  | fail (error : ε)
  | send (bytes : List UInt8) (next : Script ε α)
  /-- It wants `missing + 1` bytes. -/
  | read (missing : ℕ) (next : List UInt8 → Script ε α)

namespace Script

variable {ε α β : Type}

/-- One script after another. -/
def bind : Script ε α → (α → Script ε β) → Script ε β
  | done a, f => f a
  | fail e, _ => fail e
  | send bytes next, f => send bytes (next.bind f)
  | read missing next, f => read missing fun bytes => (next bytes).bind f

instance : Monad (Script ε) where
  pure := done
  bind := bind

/-- Writes bytes. -/
def write (bytes : List UInt8) : Script ε Unit := send bytes (done ())

/-- Reads so many bytes. -/
def readExact : ℕ → Script ε (List UInt8)
  | 0 => done []
  | n + 1 => read n done

/-- A script that waits for `missing + 1` bytes gets some of them. -/
def resume (missing : ℕ) (next : List UInt8 → Script ε α) (chunk : List UInt8) : Script ε α :=
  if chunk.length ≤ missing then read (missing - chunk.length) fun rest => next (chunk ++ rest)
  else next chunk

/-- What a script does with an input: what it writes, where it then stands,
and what it has not read. -/
structure Ran (ε α : Type) where
  sent : List (List UInt8)
  now : Script ε α
  left : List UInt8

/-- **A script, run over an input as far as it goes.** -/
def run : Script ε α → List UInt8 → Ran ε α
  | done a, input => ⟨[], done a, input⟩
  | fail e, input => ⟨[], fail e, input⟩
  | send bytes next, input =>
    let rest := next.run input
    ⟨bytes :: rest.sent, rest.now, rest.left⟩
  | read missing next, input =>
    if input.length ≤ missing then
      ⟨[], read (missing - input.length) fun rest => next (input ++ rest), []⟩
    else (next (input.take (missing + 1))).run (input.drop (missing + 1))

theorem run_resume {missing : ℕ} (next : List UInt8 → Script ε α) {chunk : List UInt8}
    (hle : chunk.length ≤ missing + 1) (input : List UInt8) :
    (resume missing next chunk).run input = (read missing next).run (chunk ++ input) := by
  unfold resume
  split
  · rename_i hshort
    rw [run, run, length_append]
    by_cases hinput : input.length ≤ missing - chunk.length
    · rw [if_pos hinput, if_pos (by omega), Nat.sub_sub]
      simp only [append_assoc]
    · rw [if_neg hinput, if_neg (by omega), take_append, drop_append,
        take_of_length_le hle, drop_of_length_le hle, nil_append,
        Nat.sub_add_comm hshort]
  · rename_i hwhole
    have hlength : chunk.length = missing + 1 := by omega
    rw [run, length_append, if_neg (by omega), ← hlength, take_left, drop_left]

variable (p : Script ε α)

theorem run_append (xs ys : List UInt8) : p.run (xs ++ ys) =
      ⟨(p.run xs).sent ++ ((p.run xs).now.run ((p.run xs).left ++ ys)).sent,
        ((p.run xs).now.run ((p.run xs).left ++ ys)).now,
        ((p.run xs).now.run ((p.run xs).left ++ ys)).left⟩ := by
  induction p generalizing xs ys with
  | done | fail => rfl
  | send bytes next ih => simp only [run, ih xs ys, cons_append]
  | read missing next ih =>
    by_cases hshort : xs.length ≤ missing
    · have hxs : (read missing next).run xs = ⟨[], resume missing next xs, []⟩ := by
        rw [run, resume, if_pos hshort, if_pos hshort]
      rw [hxs, nil_append, nil_append, run_resume next (by omega)]
    · have hlong : ¬ (xs ++ ys).length ≤ missing := by rw [length_append]; omega
      rw [run, if_neg hlong, run, if_neg hshort, take_append_of_le_length (by omega),
        drop_append_of_le_length (by omega), ih]

theorem run_read_nil (missing : ℕ) (next : List UInt8 → Script ε α) :
    (read missing next).run [] = ⟨[], read missing next, []⟩ := by
  rw [run, if_pos (show ([] : List UInt8).length ≤ missing from Nat.zero_le _)]
  rfl

theorem left_run_nil : (p.run []).left = [] := by
  induction p with
  | done | fail => rfl
  | send bytes next ih => exact ih
  | read missing next ih => rw [run_read_nil]

theorem sent_mono {xs zs : List UInt8} (h : xs <+: zs) : (p.run xs).sent <+: (p.run zs).sent := by
  obtain ⟨ys, rfl⟩ := h
  rw [run_append]
  exact prefix_append ..

variable {f : α → Script ε β}
  {input left : List UInt8} {p : Script ε α} {sent : List (List UInt8)} {a : α}

theorem run_bind_of_done (h : p.run input = ⟨sent, done a, left⟩) : (p >>= f).run input =
      ⟨sent ++ ((f a).run left).sent, ((f a).run left).now, ((f a).run left).left⟩ := by
  change (p.bind f).run input = _
  induction p generalizing input sent with
  | done a' =>
    cases h
    rfl
  | fail e => cases h
  | send bytes next ih =>
    rw [run] at h
    cases hrun : next.run input with
    | mk sent' now left' =>
      rw [hrun] at h
      cases h
      rw [bind, run, ih hrun]
      rfl
  | read missing next ih =>
    rw [run] at h
    split at h
    · cases h
    · rename_i hlong
      rw [bind, run, if_neg hlong, ih _ h]

theorem sent_prefix_bind (f : α → Script ε β) (input : List UInt8) :
    (p.run input).sent <+: ((p >>= f).run input).sent := by
  change (p.run input).sent <+: ((p.bind f).run input).sent
  induction p generalizing input with
  | done | fail => exact nil_prefix ..
  | send bytes next ih => exact prefix_cons_inj bytes |>.2 (ih input)
  | read missing next ih =>
    rw [bind, run, run]
    split
    · exact nil_prefix ..
    · exact ih _ _

theorem run_bind_silent
    {r : Ran ε β} (h : p.run input = ⟨[], done a, left⟩) (hnext : (f a).run left = r) :
    (p >>= f).run input = r := by
  rw [run_bind_of_done h, hnext]
  rfl

variable {bytes : List UInt8}

theorem run_bind_write {f : Unit → Script ε β}
    {now : Script ε β} (hnext : (f ()).run input = ⟨sent, now, left⟩) :
    (write bytes >>= f).run input = ⟨bytes :: sent, now, left⟩ := by
  change (send bytes (f ())).run input = _
  rw [run, hnext]

theorem sent_bind_silent (h : p.run input = ⟨[], done a, left⟩) :
    ((p >>= f).run input).sent = ((f a).run left).sent := by
  rw [run_bind_silent h rfl]

theorem sent_bind_write {f : Unit → Script ε β} :
    ((write bytes >>= f).run input).sent = bytes :: ((f ()).run input).sent := by
  rw [run_bind_write rfl]

@[simp] theorem run_pure (a : α) (input : List UInt8) :
    (pure a : Script ε α).run input = ⟨[], done a, input⟩ := rfl

theorem run_readExact {n : ℕ} (hlength : bytes.length = n) (rest : List UInt8) :
    (readExact n : Script ε _).run (bytes ++ rest) = ⟨[], done bytes, rest⟩ := by
  cases n with
  | zero =>
    obtain rfl := eq_nil_of_length_eq_zero hlength
    rfl
  | succ n =>
    rw [readExact, run, if_neg (by rw [length_append]; omega), ← hlength, take_left, drop_left]
    rfl

theorem run_readExact_all {n : ℕ} (hlength : bytes.length = n) :
    (readExact n : Script ε _).run bytes = ⟨[], done bytes, []⟩ := by
  simpa using run_readExact (ε := ε) hlength []

end Script

end BitTorrent
