import BitTorrent.Common.Address
import Mathlib.Data.Finset.Card

/-!
# The addresses a session knows

`session/peer_pool.rs`: the addresses that were ever added, those of them that wait for a first
dial, those that wait for another one, and what has become of each.
-/

namespace BitTorrent.Session

open List

inductive Outcome
  | finished
  | unreachable
  | dropped
  | badData
  | isLocal
deriving DecidableEq

inductive Decision
  | noRetry
  | retryIn (delay : ℕ)
  | giveUp
  | banned
deriving DecidableEq

structure RetryPolicy where
  afterDrop : List ℕ
  afterUnreachable : List ℕ

def RetryPolicy.withBase (base : ℕ) : RetryPolicy :=
  ⟨[base, base * 3, base * 9], [base, base * 3]⟩

/-- `Record`. -/
structure PeerRecord where
  drops : ℕ := 0
  unreachable : ℕ := 0
  banned : Bool := false

/-- How many delays there are still for a peer with a record. -/
def RetryPolicy.delaysLeft (policy : RetryPolicy) (r : PeerRecord) : ℕ :=
  (policy.afterDrop.length - r.drops) + (policy.afterUnreachable.length - r.unreachable)

/-- A record that no other wait follows: of bad data, or of a failure for
which there was no delay. -/
def RetryPolicy.Spent (policy : RetryPolicy) (r : PeerRecord) : Prop :=
  r.banned = true ∨ policy.afterDrop.length < r.drops ∨
    policy.afterUnreachable.length < r.unreachable

structure PeerPool where
  known : Finset SocketAddr
  reserve : List SocketAddr
  retry : List (SocketAddr × ℕ)
  records : SocketAddr → Option PeerRecord
  policy : RetryPolicy
  allowIpv6 : Bool
  skippedIpv6 : ℕ

namespace PeerPool

def withPolicy (allowIpv6 : Bool) (policy : RetryPolicy) : PeerPool :=
  ⟨∅, [], [], fun _ => none, policy, allowIpv6, 0⟩

/-- The loop of `add`: one address, and how many were new. -/
def addOne (s : ℕ × PeerPool) (addr : SocketAddr) : ℕ × PeerPool :=
  if addr.port = 0 then s
  else if addr.isIpv6 && !s.2.allowIpv6 then (s.1, { s.2 with skippedIpv6 := s.2.skippedIpv6 + 1 })
  else if addr ∈ s.2.known then s
  else (s.1 + 1, { s.2 with known := insert addr s.2.known, reserve := s.2.reserve ++ [addr] })

variable (p : PeerPool)

def add (addrs : List SocketAddr) : ℕ × PeerPool := addrs.foldl addOne (0, p)

/-- `Vec::swap_remove`: the last takes the place of the one that goes. -/
def swapRemove {α : Type} (l : List α) (i : ℕ) : List α :=
  match l.getLast? with
  | some last => (l.set i last).dropLast
  | none => []

def nextToDial (now : ℕ) : Option SocketAddr × PeerPool :=
  match p.reserve with
  | addr :: reserve => (some addr, { p with reserve })
  | [] =>
    match p.retry.findIdx? fun x => decide (x.2 ≤ now) with
    | none => (none, p)
    | some due => (p.retry[due]?.map Prod.fst, { p with retry := swapRemove p.retry due })

/-- What a failure leads to, with the record that counts it. -/
def retryAfter (addr : SocketAddr) (record : PeerRecord) (failures : ℕ)
    (delays : List ℕ) (now : ℕ) : Decision × PeerPool :=
  let p := { p with records := Function.update p.records addr (some record) }
  match delays[failures - 1]?, record.banned with
  | some delay, false => (.retryIn delay, { p with retry := p.retry ++ [(addr, now + delay)] })
  | _, _ => (.giveUp, p)

def recordOutcome (addr : SocketAddr) (outcome : Outcome) (now : ℕ) :
    Decision × PeerPool :=
  let record := (p.records addr).getD {}
  match outcome with
  | .finished =>
    (.noRetry, { p with records := Function.update p.records addr (some record) })
  | .isLocal =>
    (.noRetry, { p with records := Function.update p.records addr (some record) })
  | .badData =>
    (.banned, { p with
      records := Function.update p.records addr (some { record with banned := true })
      retry := p.retry.filter fun x => x.1 != addr })
  | .dropped =>
    p.retryAfter addr { record with drops := record.drops + 1 } (record.drops + 1)
      p.policy.afterDrop now
  | .unreachable =>
    p.retryAfter addr { record with unreachable := record.unreachable + 1 }
      (record.unreachable + 1) p.policy.afterUnreachable now

def isBanned (addr : SocketAddr) : Bool := (p.records addr).any PeerRecord.banned

def dialed : ℕ := p.known.card - p.reserve.length

variable {p} {p' : PeerPool} {addr : SocketAddr} {now : ℕ}

/-- Whether `add` takes an address. -/
def Takes (p : PeerPool) (addr : SocketAddr) : Prop :=
  addr.port ≠ 0 ∧ (addr.isIpv6 = true → p.allowIpv6 = true)

/-- Whether `add` would queue an address. -/
def isNew (p : PeerPool) (a : SocketAddr) : Bool :=
  decide (a ∉ p.known ∧ a.port ≠ 0 ∧ (a.isIpv6 = true → p.allowIpv6 = true))

/-- How often an address is to be dialed for a first time: as often as it
waits for that, and once more if it is new. -/
def firsts (p : PeerPool) (a : SocketAddr) : ℕ := p.reserve.count a + (p.isNew a).toNat

/-- **How often an address waits** to be dialed. -/
def waits (p : PeerPool) (a : SocketAddr) : ℕ := p.firsts a + (p.retry.map Prod.fst).count a

/-- The record of an address. -/
def record (p : PeerPool) (a : SocketAddr) : PeerRecord := (p.records a).getD {}

theorem banned_record (p : PeerPool) (a : SocketAddr) : (p.record a).banned = p.isBanned a := by
  unfold isBanned record
  cases p.records a <;> rfl

/-- **What an operation does to who waits**: what it hands out has waited,
whom it has wait `again` has a delay less, and a record only grows. -/
structure Moves (p p' : PeerPool) (out : List SocketAddr) (again : SocketAddr → ℕ) : Prop where
  known : (∀ a ∈ p.reserve, a ∈ p.known) → ∀ a ∈ p'.reserve, a ∈ p'.known
  firsts : ∀ a, p'.firsts a ≤ p.firsts a
  waits : ∀ a, out.count a + p'.waits a ≤ p.waits a + again a
  delays : ∀ a, p'.policy.delaysLeft (p'.record a) + again a ≤ p.policy.delaysLeft (p.record a)
  banned : ∀ a, p.isBanned a = true → p'.isBanned a = true
  spent : ∀ a, p.policy.Spent (p.record a) → p'.policy.Spent (p'.record a)

theorem Moves.of_records {out : List SocketAddr} (hrecords : p'.records = p.records)
    (hpolicy : p'.policy = p.policy)
    (hknown : (∀ a ∈ p.reserve, a ∈ p.known) → ∀ a ∈ p'.reserve, a ∈ p'.known)
    (hfirsts : ∀ a, p'.firsts a ≤ p.firsts a)
    (hwaits : ∀ a, out.count a + p'.waits a ≤ p.waits a) : p.Moves p' out fun _ => 0 := by
  refine ⟨hknown, hfirsts, hwaits, fun a => ?_, fun a => ?_, fun a => ?_⟩
  · simp [record, hrecords, hpolicy]
  · simp [isBanned, hrecords]
  · simp [record, hrecords, hpolicy]

theorem moves_addOne (k : ℕ) (p : PeerPool) (addr : SocketAddr) :
    p.Moves (addOne (k, p) addr).2 [] fun _ => 0 := by
  have hsame (skipped : ℕ) : p.Moves { p with skippedIpv6 := skipped } [] fun _ => 0 :=
    .of_records rfl rfl id (fun a => le_rfl) fun a => by simp [waits, firsts, isNew]
  unfold addOne
  split_ifs with hport hfamily hknown
  · exact hsame _
  · exact hsame _
  · exact hsame _
  · have hfirsts (a : SocketAddr) : { p with
        known := insert addr p.known, reserve := p.reserve ++ [addr] }.firsts a = p.firsts a := by
      by_cases ha : a = addr
      · subst ha
        have hnew : p.isNew a = true := decide_eq_true ⟨hknown, hport, by simpa using hfamily⟩
        rw [firsts, firsts, hnew]
        simp [isNew]
      · simp [firsts, isNew, ha, Ne.symm ha]
    refine .of_records rfl rfl (fun h => ?_) (fun a => (hfirsts a).le) fun a => ?_
    · exact forall_mem_append.2 ⟨fun a ha => Finset.mem_insert_of_mem (h a ha),
        forall_mem_singleton.2 (Finset.mem_insert_self _ _)⟩
    · rw [waits, hfirsts]
      exact (Nat.zero_add _).le

theorem Moves.trans {p₁ p₂ p₃ : PeerPool} (h₁ : p₁.Moves p₂ [] fun _ => 0)
    (h₂ : p₂.Moves p₃ [] fun _ => 0) : p₁.Moves p₃ [] fun _ => 0 where
  known h := h₂.known (h₁.known h)
  firsts a := (h₂.firsts a).trans (h₁.firsts a)
  waits a := (h₂.waits a).trans (by simpa using h₁.waits a)
  delays a := (h₂.delays a).trans (h₁.delays a)
  banned a h := h₂.banned a (h₁.banned a h)
  spent a h := h₂.spent a (h₁.spent a h)

theorem moves_add (p : PeerPool) (addrs : List SocketAddr) :
    p.Moves (p.add addrs).2 [] fun _ => 0 := by
  refine foldlRecOn (motive := fun s : ℕ × PeerPool => p.Moves s.2 [] fun _ => 0) addrs _ ?_ ?_
  · exact .of_records rfl rfl id (fun a => le_rfl) fun a => by simp
  · exact fun s h addr _ => h.trans (moves_addOne s.1 s.2 addr)

theorem perm_swapRemove {α : Type} {l : List α} {i : ℕ} {x : α} (h : l[i]? = some x) :
    l.Perm (x :: swapRemove l i) := by
  rcases eq_nil_or_concat l with rfl | ⟨init, last, rfl⟩
  · cases h
  rw [concat_eq_append] at h ⊢
  simp only [swapRemove, getLast?_append, getLast?_singleton, Option.some_or]
  rcases Nat.lt_or_ge i init.length with hi | hi
  · rw [getElem?_append_left hi, getElem?_eq_getElem hi, Option.some.injEq] at h
    subst h
    rw [set_append_left _ _ hi, dropLast_concat, set_eq_take_append_cons_drop, if_pos hi]
    have hinit : init.Perm (init[i] :: (init.take i ++ init.drop (i + 1))) := by
      nth_rewrite 1 [← take_append_drop i init]
      rw [drop_eq_getElem_cons hi]
      exact perm_middle
    exact (perm_append_singleton last init).trans ((hinit.cons last).trans
      ((Perm.swap ..).trans (perm_middle.symm.cons _)))
  · rw [getElem?_append_right hi] at h
    obtain ⟨hlt, rfl⟩ := List.getElem?_eq_some_iff.1 h
    rw [length_singleton] at hlt
    obtain rfl : i = init.length := by omega
    simp

theorem moves_nextToDial (p : PeerPool) (now : ℕ) :
    p.Moves (p.nextToDial now).2 (p.nextToDial now).1.toList fun _ => 0 := by
  unfold nextToDial
  split
  · rename_i addr reserve hreserve
    refine .of_records rfl rfl (fun h a ha => ?_) (fun a => ?_) fun a => ?_
    · exact h a (hreserve ▸ mem_cons_of_mem _ ha)
    · simp only [firsts, isNew, hreserve, count_cons]
      omega
    · simp only [waits, firsts, isNew, hreserve, count_cons, Option.toList_some, count_nil]
      omega
  · split
    · exact .of_records rfl rfl id (fun a => le_rfl) fun a => by simp
    · rename_i due hdue
      obtain ⟨hlt, -⟩ := findIdx?_eq_some_iff_getElem.1 hdue
      refine .of_records rfl rfl id (fun a => le_rfl) fun a => ?_
      have hcount := ((perm_swapRemove (getElem?_eq_getElem hlt)).map Prod.fst).count_eq a
      rw [getElem?_eq_getElem hlt]
      simp only [waits, firsts, isNew, hcount, Option.map_some, Option.toList_some, map_cons,
        count_cons, count_nil]
      omega

/-- How often a decision about one address has another wait. -/
def again (d : Decision) (addr a : SocketAddr) : ℕ :=
  match d with
  | .retryIn _ => if addr = a then 1 else 0
  | _ => 0

variable {r : PeerRecord}

theorem moves_record {retry : List (SocketAddr × ℕ)} {d : Decision}
    (hretry : ∀ a, (retry.map Prod.fst).count a ≤ (p.retry.map Prod.fst).count a + again d addr a)
    (hbanned : p.isBanned addr = true → r.banned = true)
    (hspent : p.policy.Spent (p.record addr) → p.policy.Spent r)
    (hdelays : p.policy.delaysLeft r + again d addr addr ≤ p.policy.delaysLeft (p.record addr)) :
    p.Moves { p with records := Function.update p.records addr (some r), retry := retry } []
      (again d addr) := by
  have hother {a : SocketAddr} (ha : a ≠ addr) : again d addr a = 0 := by
    cases d <;> simp [again, Ne.symm ha]
  refine ⟨id, fun a => le_rfl, fun a => ?_, fun a => ?_, fun a => ?_, fun a => ?_⟩
  · have := hretry a
    simp only [waits, firsts, isNew, count_nil]
    omega
  · by_cases ha : a = addr
    · subst ha
      simpa [record] using hdelays
    · simp [record, ha, hother ha]
  · by_cases ha : a = addr
    · subst ha
      simpa [isBanned] using hbanned
    · simp [isBanned, ha]
  · by_cases ha : a = addr
    · subst ha
      simpa [record] using hspent
    · simp [record, ha]

/-- **What an outcome does to who waits**: one that is given up on is spent,
and only one that is not banned waits again. -/
structure Recorded (p : PeerPool) (addr : SocketAddr) (result : Decision × PeerPool) : Prop where
  moves : p.Moves result.2 [] (again result.1 addr)
  spent : result.1 = .giveUp → result.2.policy.Spent (result.2.record addr)
  again : ∀ a, again result.1 addr a = 0 ∨
    (again result.1 addr a = 1 ∧ addr = a ∧ p.isBanned a = false)

theorem recorded_retryAfter {failures : ℕ} {delays : List ℕ} (hbanned : r.banned = p.isBanned addr)
    (hspent : p.policy.Spent (p.record addr) → p.policy.Spent r)
    (hdelays : p.policy.delaysLeft r ≤ p.policy.delaysLeft (p.record addr))
    (hused : failures - 1 < delays.length →
      p.policy.delaysLeft r < p.policy.delaysLeft (p.record addr))
    (hover : delays.length ≤ failures - 1 → p.policy.Spent r) :
    p.Recorded addr (p.retryAfter addr r failures delays now) := by
  unfold retryAfter
  dsimp only
  split
  · rename_i delay hdelay hfree
    refine ⟨moves_record (fun a => ?_) hbanned.trans hspent ?_, nofun, fun a => ?_⟩
    · simp [again, count_singleton]
    · rw [again, if_pos rfl]
      exact hused (List.getElem?_eq_some_iff.1 hdelay).1
    · by_cases ha : addr = a
      · exact .inr ⟨if_pos ha, ha, ha ▸ hbanned ▸ hfree⟩
      · exact .inl (if_neg ha)
  · rename_i hnot
    refine ⟨moves_record (fun a => Nat.le_add_right _ _) hbanned.trans hspent hdelays, fun _ => ?_,
      fun a => .inl rfl⟩
    simp only [record, Function.update_self, Option.getD_some]
    by_cases hlen : delays.length ≤ failures - 1
    · exact hover hlen
    · exact .inl (by simpa using hnot _ (getElem?_eq_getElem (not_le.1 hlen)))

theorem recorded_recordOutcome (p : PeerPool) (addr : SocketAddr) (outcome : Outcome) (now : ℕ) :
    p.Recorded addr (p.recordOutcome addr outcome now) := by
  have hbanned := p.banned_record addr
  cases outcome with
  | finished | isLocal =>
    exact ⟨moves_record (fun a => Nat.le_add_right _ _) hbanned.trans id le_rfl, nofun,
      fun a => .inl rfl⟩
  | badData =>
    exact ⟨moves_record (fun a => (filter_sublist.map Prod.fst).count_le a) (fun _ => rfl)
      (fun _ => .inl rfl) le_rfl, nofun, fun a => .inl rfl⟩
  | dropped | unreachable =>
    refine recorded_retryAfter hbanned (Or.imp_right fun h => ?_) ?_ (fun h => ?_) fun h => .inr ?_
    all_goals
      simp only [RetryPolicy.delaysLeft, record] at *
      omega

end PeerPool

end BitTorrent.Session
