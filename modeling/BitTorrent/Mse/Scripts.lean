import BitTorrent.Mse.Handshake
import BitTorrent.Mse.Modexp

/-!
# What each end does

The two scripts of the exchange, run over what the other end writes.
-/

namespace BitTorrent.Mse

open List

open Script

theorem toNat_ofNat_of_le_maxPad {n : ℕ} (h : n ≤ maxPad) : (UInt16.ofNat n).toNat = n := by
  have : maxPad = 512 := rfl
  rw [UInt16.toNat_ofNat']
  omega

/-- **A pattern stands at the end of a pad and not earlier.** -/
def FirstAfter (pad pattern : List UInt8) : Prop :=
  ∀ seen, seen <+: pad ++ pattern → pattern <:+ seen → seen = pad ++ pattern

/-- The window of a scan: the last bytes that were read, as many as the
pattern has. -/
def window (pattern seen : List UInt8) : List UInt8 := seen.drop (seen.length - pattern.length)

theorem length_window (pattern seen : List UInt8) :
    (window pattern seen).length = min seen.length pattern.length := by
  rw [window, length_drop]
  omega

variable {pattern : List UInt8}

theorem window_snoc (hpattern : pattern ≠ []) (seen : List UInt8) (byte : UInt8) :
    (if (window pattern seen).length = pattern.length then (window pattern seen).drop 1
      else window pattern seen) ++ [byte] = window pattern (seen ++ [byte]) := by
  have hpos := length_pos_iff.2 hpattern
  rw [length_window]
  unfold window
  rw [length_append, length_singleton]
  split
  · rename_i hfull
    rw [drop_drop, drop_append_of_le_length (by omega)]
    congr 2
    omega
  · rename_i hshort
    rw [show seen.length - pattern.length = 0 by omega,
      show seen.length + 1 - pattern.length = 0 by omega, drop_zero, drop_zero]

variable {pad : List UInt8}

theorem run_scanLoop (hpattern : pattern ≠ [])
    (hfirst : FirstAfter pad pattern) (rest : List UInt8) {todo seen : List UInt8} {limit : ℕ}
    (hsplit : seen ++ todo = pad ++ pattern) (htodo : todo ≠ []) (hlimit : todo.length ≤ limit) :
    (scanLoop pattern limit (window pattern seen)).run (todo ++ rest) = ⟨[], .done (), rest⟩ := by
  induction todo generalizing seen limit with
  | nil => exact absurd rfl htodo
  | cons byte todo ih =>
    obtain ⟨limit, rfl⟩ : ∃ n, limit = n + 1 := ⟨limit - 1, by
      rw [length_cons] at hlimit
      omega⟩
    have hread : (readExact 1 : Exchange _).run (byte :: (todo ++ rest)) =
        ⟨[], .done [byte], todo ++ rest⟩ := run_readExact (show [byte].length = 1 from rfl) _
    rw [scanLoop, cons_append, run_bind_of_done hread]
    dsimp only
    rw [window_snoc hpattern, nil_append]
    have hsplit : (seen ++ [byte]) ++ todo = pad ++ pattern := by simpa using hsplit
    cases todo with
    | nil =>
      -- everything has been read, and the pattern is its end
      rw [append_nil] at hsplit
      have hwindow : window pattern (seen ++ [byte]) = pattern := by
        rw [window, hsplit, length_append, Nat.add_sub_cancel, drop_left]
      rw [if_pos ⟨by rw [hwindow], hwindow⟩]
      rfl
    | cons next todo =>
      rw [if_neg fun hfound => ?_]
      · exact ih hsplit (cons_ne_nil _ _) (Nat.le_of_succ_le_succ hlimit)
      · have hsuffix : pattern <:+ seen ++ [byte] := hfound.2 ▸ drop_suffix ..
        have hwhole := hfirst _ ⟨_, hsplit⟩ hsuffix
        rw [hwhole] at hsplit
        exact cons_ne_nil _ _ (append_right_eq_self.1 hsplit)

theorem run_scanFor (hpattern : pattern ≠ [])
    (hfirst : FirstAfter pad pattern) {limit : ℕ} (hlimit : pad.length + pattern.length ≤ limit)
    (rest : List UInt8) :
    (scanFor pattern limit).run (pad ++ pattern ++ rest) = ⟨[], .done (), rest⟩ := by
  have hwindow : window pattern [] = [] := drop_nil
  rw [scanFor, ← hwindow]
  exact run_scanLoop hpattern hfirst rest (nil_append _)
    (append_ne_nil_of_right_ne_nil _ hpattern) (by rw [length_append]; exact hlimit)

theorem toKey_toList (k : Key) : toKey k.toList = k := by
  apply List.Vector.ext
  intro i
  have hlt : (i : ℕ) < k.toList.length := by
    rw [k.toList_length]
    exact i.isLt
  rw [toKey, List.Vector.get_ofFn, getD_eq_getElem?_getD, getElem?_eq_getElem hlt, Option.getD_some]
  rfl

theorem run_checked {α : Type} (a : α) (input : List UInt8) :
    (checked (some a)).run input = ⟨[], .done a, input⟩ := rfl

/-- **The two ends of an exchange**: what each is asked for, and what it
draws at random. -/
structure Setting where
  infoHash : Hash20
  allowPlaintext : Bool
  payload : List UInt8
  initiator : Drawn
  known : List Hash20
  accept : Accept
  responder : Drawn
  /-- How many bytes of the initiator's key had been read already when
  `respond` was called. -/
  ahead : ℕ

section Ends

variable [Digests] {x : Setting} {ya yb s : Key}

/-- The keys that the two ends arrive at. -/
structure Setting.Agreed (x : Setting) (ya yb s : Key) : Prop where
  initiator_public : publicKey x.initiator.secret = some ya
  responder_public : publicKey x.responder.secret = some yb
  initiator_secret : sharedSecret yb x.initiator.secret = some (some s)
  responder_secret : sharedSecret ya x.responder.secret = some (some s)

/-- The initiator's cipher. -/
def Setting.cipherA (x : Setting) (s : Key) : Rc4 := (ciphers s x.infoHash true).encrypt

/-- The responder's cipher. -/
def Setting.cipherB (x : Setting) (s : Key) : Rc4 := (ciphers s x.infoHash true).decrypt

/-- The eight zero bytes through the responder's cipher. -/
def Setting.verification (x : Setting) (s : Key) : List UInt8 :=
  ((x.cipherB s).apply (.replicate 8 0)).1

/-- **What the exchange is held to.** -/
structure Setting.Fits (x : Setting) : Prop where
  initiator_pad : x.initiator.pad.length ≤ maxPad
  initiator_innerPad : x.initiator.innerPad.length ≤ maxPad
  responder_pad : x.responder.pad.length ≤ maxPad
  responder_innerPad : x.responder.innerPad.length ≤ maxPad
  payload : x.payload.length < 65536
  ahead : x.ahead ≤ keyBytes
  known : x.infoHash ∈ x.known
  /-- There is a method that both accept. -/
  common : x.accept.allowRc4 = true ∨ (x.allowPlaintext = true ∧ x.accept.allowPlaintext = true)
  initiator_usable : ∀ y, publicKey x.initiator.secret = some y → usable y = some true
  responder_usable : ∀ y, publicKey x.responder.secret = some y → usable y = some true
  /-- SHA-1 tells the info hash from the others. -/
  hash_injective : ∀ h ∈ x.known,
    hash [req2, h.toList] = hash [req2, x.infoHash.toList] → h = x.infoHash
  /-- The patterns of the two scans do not stand in the pads before them. -/
  initiator_sync : ∀ ya yb s, x.Agreed ya yb s →
    FirstAfter x.initiator.pad (hash [req1, s.toList]).toList
  responder_sync : ∀ ya yb s, x.Agreed ya yb s →
    FirstAfter x.responder.pad (x.verification s)

omit [Digests] in
theorem Setting.exists_agreed (hinitiator : ∀ y, publicKey x.initiator.secret = some y →
    usable y = some true) (hresponder : ∀ y, publicKey x.responder.secret = some y →
    usable y = some true) : ∃ ya yb s, x.Agreed ya yb s := by
  obtain ⟨ya, yb, hya, hyb, hsecret⟩ := exists_sharedSecret x.initiator.secret x.responder.secret
  obtain ⟨s, hs, ht⟩ := hsecret (hinitiator ya hya) (hresponder yb hyb)
  exact ⟨ya, yb, s, hya, hyb, ht, hs⟩

namespace Setting

variable (x) (ya yb s)

/-- The first message of the initiator. -/
def hello : List UInt8 := ya.toList ++ x.initiator.pad

/-- The first message of the responder. -/
def reply : List UInt8 := yb.toList ++ x.responder.pad

/-- The request, sealed, and the cipher after it. -/
def sealedRequest : List UInt8 × Rc4 :=
  (x.cipherA s).apply (requestPlain x.allowPlaintext x.initiator.innerPad x.payload)

/-- The second message of the initiator. -/
def request : List UInt8 :=
  (hash [req1, s.toList]).toList ++ proof s x.infoHash ++ (x.sealedRequest s).1

/-- The method that is agreed on: RC4, if the responder accepts it. -/
def select : UInt32 := if x.accept.allowRc4 then cryptoRc4 else cryptoPlaintext

/-- The answer, sealed, and the cipher after it. -/
def sealedAnswer : List UInt8 × Rc4 :=
  (x.cipherB s).apply (answerPlain x.select x.responder.innerPad)

/-- The cipher of a direction once the exchange is over, if there is one. -/
def afterwards (cipher : Rc4) : Option Rc4 := if x.accept.allowRc4 then some cipher else none

/-- The stream that the initiator ends with. -/
def initiatorStream : MseStream :=
  ⟨x.afterwards (x.sealedRequest s).2, x.afterwards (x.sealedAnswer s).2, []⟩

/-- The stream that the responder ends with. -/
def responderStream : MseStream :=
  ⟨x.afterwards (x.sealedAnswer s).2, x.afterwards (x.sealedRequest s).2, x.payload⟩

end Setting

omit [Digests] in
theorem select_of_rc4 (h : x.accept.allowRc4 = true) : x.select = cryptoRc4 := if_pos h

omit [Digests] in
theorem select_of_not_rc4 (h : x.accept.allowRc4 = false) : x.select = cryptoPlaintext :=
  if_neg (by rw [h]; exact Bool.false_ne_true)

variable {cipher : Rc4}

omit [Digests] in
theorem afterwards_of_rc4 (h : x.accept.allowRc4 = true) :
    x.afterwards cipher = some cipher := if_pos h

omit [Digests] in
theorem afterwards_of_not_rc4 (h : x.accept.allowRc4 = false) :
    x.afterwards cipher = none := if_neg (by rw [h]; exact Bool.false_ne_true)

/-- The fields of the answer. -/
def Setting.answerHead (x : Setting) : List UInt8 :=
  be32Bytes x.select ++ be16Bytes (.ofNat x.responder.innerPad.length)

/-- The responder's cipher past the verification. -/
def Setting.cipherB' (x : Setting) (s : Key) : Rc4 := ((x.cipherB s).apply (.replicate 8 0)).2

theorem sealedAnswer_eq : x.sealedAnswer s =
      (x.verification s ++ (((x.cipherB' s).apply x.answerHead).1 ++
        (((x.cipherB' s).apply x.answerHead).2.apply x.responder.innerPad).1),
        (((x.cipherB' s).apply x.answerHead).2.apply x.responder.innerPad).2) := by
  rw [Setting.sealedAnswer, answerPlain, append_assoc, append_assoc,
    Rc4.apply_append, ← append_assoc (be32Bytes _), Rc4.apply_append, Setting.verification,
    Setting.cipherB', Setting.answerHead]

theorem run_initiateWithPads (hx : x.Fits) (h : x.Agreed ya yb s) :
    (initiateWithPads x.infoHash x.allowPlaintext x.payload x.initiator).run
      (x.reply yb ++ (x.sealedAnswer s).1) =
    ⟨[x.hello ya, x.request s], .done (x.initiatorStream s), []⟩ := by
  have hsync := hx.responder_sync ya yb s h
  have hverification : (x.verification s).length = 8 := Rc4.length_apply ..
  unfold initiateWithPads
  rw [Setting.reply, append_assoc, h.initiator_public]
  refine run_bind_silent (run_checked ya _) (run_bind_write ?_)
  refine run_bind_silent (run_readExact yb.toList_length _) ?_
  rw [toKey_toList, h.initiator_secret]
  refine run_bind_silent (run_checked (some s) _) (run_bind_write ?_)
  rw [sealedAnswer_eq, ← append_assoc x.responder.pad]
  refine run_bind_silent (run_scanFor ?_ hsync ?_ _) ?_
  · exact ne_nil_of_length_eq_add_one hverification
  · rw [hverification]
    exact Nat.add_le_add_right hx.responder_pad 8
  have hhead : ((x.cipherB' s).apply x.answerHead).1.length = 6 := Rc4.length_apply ..
  refine run_bind_silent (run_readExact hhead _) ?_
  have hopened : ((ciphers s x.infoHash true).decrypt.apply (.replicate 8 0)).2.apply
      ((x.cipherB' s).apply x.answerHead).1 =
        (x.answerHead, ((x.cipherB' s).apply x.answerHead).2) := Rc4.apply_apply ..
  have hselect : be32 x.answerHead 0 = x.select := be32_append [] x.select _
  have hpadD : be16 x.answerHead 4 = .ofNat x.responder.innerPad.length :=
    be16_concat (be32Bytes x.select) _
  rw [hopened]
  dsimp only
  rw [hselect, hpadD, toNat_ofNat_of_le_maxPad hx.responder_innerPad,
    if_neg (Nat.not_lt.2 hx.responder_innerPad)]
  refine run_bind_silent (run_readExact_all (Rc4.length_apply ..)) ?_
  rw [Rc4.apply_apply, Setting.initiatorStream, sealedAnswer_eq]
  cases haccept : x.accept.allowRc4 with
  | true =>
    rw [if_pos (select_of_rc4 haccept), afterwards_of_rc4 haccept, afterwards_of_rc4 haccept]
    rfl
  | false =>
    have hplaintext := (hx.common.resolve_left (by rw [haccept]; exact Bool.false_ne_true)).1
    have hselect := select_of_not_rc4 haccept
    rw [if_neg (by rw [hselect]; decide), if_pos ⟨hselect, hplaintext⟩,
      afterwards_of_not_rc4 haccept, afterwards_of_not_rc4 haccept]
    rfl

theorem initiateWithPads_sends (h : x.Agreed ya yb s) :
    [x.hello ya] <+: ((initiateWithPads x.infoHash x.allowPlaintext x.payload
      x.initiator).run []).sent ∧
    [x.hello ya, x.request s] <+: ((initiateWithPads x.infoHash x.allowPlaintext x.payload
      x.initiator).run yb.toList).sent := by
  unfold initiateWithPads
  rw [h.initiator_public]
  constructor
  · rw [sent_bind_silent (run_checked ya _), sent_bind_write]
    exact prefix_append [_] _
  · rw [sent_bind_silent (run_checked ya _), sent_bind_write,
      sent_bind_silent (run_readExact_all yb.toList_length), toKey_toList, h.initiator_secret,
      sent_bind_silent (run_checked (some s) _)]
    dsimp only
    rw [sent_bind_write]
    exact prefix_append [_, _] _

omit [Digests] in
theorem zipWith_xor_inj {xs ys mask : List UInt8} (hxs : xs.length = mask.length)
    (hys : ys.length = mask.length)
    (h : zipWith (· ^^^ ·) xs mask = zipWith (· ^^^ ·) ys mask) : xs = ys := by
  induction mask generalizing xs ys with
  | nil => rw [eq_nil_of_length_eq_zero hxs, eq_nil_of_length_eq_zero hys]
  | cons m mask ih =>
    cases xs with
    | nil => cases hxs
    | cons x xs =>
      cases ys with
      | nil => cases hys
      | cons y ys =>
        rw [zipWith_cons_cons, zipWith_cons_cons, List.cons.injEq] at h
        rw [ih (Nat.succ.inj hxs) (Nat.succ.inj hys) h.2, (UInt8.xor_left_inj m).1 h.1]

theorem length_proof (s : Key) (infoHash : Hash20) : (proof s infoHash).length = 20 := by
  rw [proof, xorBytes, length_zipWith, List.Vector.toList_length, List.Vector.toList_length,
    Nat.min_self]

theorem find_proof (hx : x.Fits) (s : Key) :
    (x.known.find? fun candidate => proof s candidate = proof s x.infoHash) = some x.infoHash := by
  have hinj : ∀ candidate ∈ x.known, proof s candidate = proof s x.infoHash →
      candidate = x.infoHash := by
    intro candidate hmem hproof
    refine hx.hash_injective candidate hmem (List.Vector.toList_injective ?_)
    refine zipWith_xor_inj ?_ ?_ hproof
    all_goals rw [List.Vector.toList_length, List.Vector.toList_length]
  cases hfind : x.known.find? fun candidate => proof s candidate = proof s x.infoHash with
  | none =>
    have hnone := find?_eq_none.1 hfind x.infoHash hx.known
    rw [decide_eq_true rfl] at hnone
    exact absurd rfl hnone
  | some candidate =>
    have hproof := find?_some hfind
    rw [decide_eq_true_iff] at hproof
    rw [hinj candidate (mem_of_find?_eq_some hfind) hproof]

/-- The responder's script: some of the key may have been read before
`respond` is called. -/
def Setting.respond (x : Setting) : Exchange (MseStream × Hash20) := do
  let first ← .readExact x.ahead
  respondWithPad first x.known x.accept x.responder

/-- The fields of the request that are read first. -/
def Setting.requestHead (x : Setting) : List UInt8 :=
  .replicate 8 0 ++ be32Bytes (provide x.allowPlaintext) ++
    be16Bytes (.ofNat x.initiator.innerPad.length)

/-- The pad of the request and the length of the payload. -/
def Setting.requestSkip (x : Setting) : List UInt8 :=
  x.initiator.innerPad ++ be16Bytes (.ofNat x.payload.length)

/-- The initiator's cipher past the fields, and past the pad. -/
def Setting.cipherA' (x : Setting) (s : Key) : Rc4 := ((x.cipherA s).apply x.requestHead).2

@[inherit_doc Setting.cipherA']
def Setting.cipherA'' (x : Setting) (s : Key) : Rc4 := ((x.cipherA' s).apply x.requestSkip).2

theorem sealedRequest_eq : x.sealedRequest s =
      (((x.cipherA s).apply x.requestHead).1 ++ (((x.cipherA' s).apply x.requestSkip).1 ++
        ((x.cipherA'' s).apply x.payload).1), ((x.cipherA'' s).apply x.payload).2) := by
  have hplain : requestPlain x.allowPlaintext x.initiator.innerPad x.payload =
      x.requestHead ++ (x.requestSkip ++ x.payload) := by
    simp only [requestPlain, Setting.requestHead, Setting.requestSkip, append_assoc]
  rw [Setting.sealedRequest, hplain, Rc4.apply_append, Rc4.apply_append, Setting.cipherA'',
    Setting.cipherA']

theorem selectMethod_provide (hx : x.Fits) :
    selectMethod x.accept (provide x.allowPlaintext) = some x.select := by
  have hrc4 : ∀ allowPlaintext, provide allowPlaintext &&& cryptoRc4 ≠ 0 := by decide
  rw [Setting.select, selectMethod]
  cases haccept : x.accept.allowRc4 with
  | true => rw [if_pos ⟨hrc4 _, rfl⟩, if_pos rfl]
  | false =>
    obtain ⟨hprovided, haccepted⟩ := hx.common.resolve_left (by rw [haccept]; exact nofun)
    rw [if_neg (fun h => Bool.false_ne_true h.2), if_neg Bool.false_ne_true, hprovided, haccepted,
      if_pos ⟨by decide, rfl⟩]

theorem ciphers_responder : (ciphers s x.infoHash false).decrypt = x.cipherA s ∧
      (ciphers s x.infoHash false).encrypt = x.cipherB s := ⟨rfl, rfl⟩

omit [Digests] in
theorem length_requestHead : x.requestHead.length = 14 := by
  simp only [Setting.requestHead, be32Bytes, be16Bytes, length_append, length_replicate,
    length_cons, length_nil]

section

variable (hx : x.Fits)

include hx

theorem run_answerRequest (left : List UInt8) :
    (answerRequest x.accept x.responder (x.cipherB s) x.infoHash (provide x.allowPlaintext)
      (x.payload, (x.sealedRequest s).2)).run left =
    ⟨[(x.sealedAnswer s).1], .done (x.responderStream s, x.infoHash), left⟩ := by
  rw [answerRequest, selectMethod_provide hx]
  refine run_bind_write ?_
  rw [Setting.responderStream]
  cases haccept : x.accept.allowRc4 with
  | true =>
    rw [if_pos (select_of_rc4 haccept), afterwards_of_rc4 haccept, afterwards_of_rc4 haccept,
      run_pure, Setting.sealedAnswer]
  | false =>
    rw [if_neg (by rw [select_of_not_rc4 haccept]; decide), afterwards_of_not_rc4 haccept,
      afterwards_of_not_rc4 haccept]
    rfl

theorem run_openRequest :
    (openRequest x.accept x.responder (ciphers s x.infoHash false) x.infoHash).run
      (x.sealedRequest s).1 =
    ⟨[(x.sealedAnswer s).1], .done (x.responderStream s, x.infoHash), []⟩ := by
  have hhead : ((x.cipherA s).apply x.requestHead).1.length = 8 + 4 + 2 := by
    rw [Rc4.length_apply, length_requestHead]
  rw [openRequest, ciphers_responder.1, ciphers_responder.2, sealedRequest_eq]
  refine run_bind_silent (run_readExact hhead _) ?_
  have htake : x.requestHead.take 8 = .replicate 8 0 := by
    rw [Setting.requestHead, append_assoc]
    exact take_left' length_replicate
  have hprovided : be32 x.requestHead 8 = provide x.allowPlaintext :=
    be32_append (.replicate 8 0) (provide x.allowPlaintext) _
  have hpadC : (be16 x.requestHead 12).toNat = x.initiator.innerPad.length := by
    have hread := be16_concat (.replicate 8 0 ++ be32Bytes (provide x.allowPlaintext))
      (.ofNat x.initiator.innerPad.length)
    rw [← toNat_ofNat_of_le_maxPad hx.initiator_innerPad, ← hread]
    rfl
  rw [Rc4.apply_apply]
  dsimp only
  rw [htake, if_neg (not_not.2 rfl), hpadC, hprovided,
    if_neg (Nat.not_lt.2 hx.initiator_innerPad), ← Setting.cipherA']
  -- the pad, and behind it the length of the payload
  have hskip : ((x.cipherA' s).apply x.requestSkip).1.length = x.initiator.innerPad.length + 2 := by
    rw [Rc4.length_apply, Setting.requestSkip, length_append]
    rfl
  have hpayload : (be16 x.requestSkip x.initiator.innerPad.length).toNat = x.payload.length := by
    rw [Setting.requestSkip, be16_concat, UInt16.toNat_ofNat', Nat.mod_eq_of_lt hx.payload]
  refine run_bind_silent (run_readExact hskip _) ?_
  rw [Rc4.apply_apply, hpayload, ← Setting.cipherA'']
  refine run_bind_silent (run_readExact_all (Rc4.length_apply ..)) ?_
  rw [Rc4.apply_apply]
  have hanswer := run_answerRequest (s := s) hx []
  rwa [sealedRequest_eq] at hanswer

theorem length_ahead (ya : Key) : (ya.toList.take x.ahead).length = x.ahead ∧
      (ya.toList.drop x.ahead).length = keyBytes - min x.ahead keyBytes := by
  have hahead := hx.ahead
  rw [length_take, length_drop, ya.toList_length]
  omega

theorem run_respond (h : x.Agreed ya yb s) : x.respond.run (x.hello ya ++ x.request s) =
      ⟨[x.reply yb, (x.sealedAnswer s).1], .done (x.responderStream s, x.infoHash), []⟩ := by
  have hsync := hx.initiator_sync ya yb s h
  have hahead := hx.ahead
  have hya : ya.toList = ya.toList.take x.ahead ++ ya.toList.drop x.ahead :=
    (take_append_drop ..).symm
  obtain ⟨hfirst, hrest⟩ := length_ahead hx ya
  unfold Setting.respond respondWithPad
  rw [Setting.hello, Setting.request, append_assoc, hya, append_assoc]
  refine run_bind_silent (run_readExact hfirst _) ?_
  rw [hfirst]
  refine run_bind_silent (run_readExact hrest _) ?_
  rw [Nat.min_eq_left hahead, take_take, Nat.min_self, ← hya, toKey_toList,
    h.responder_public, h.responder_secret]
  refine run_bind_silent (run_checked yb _) (run_bind_write ?_)
  refine run_bind_silent (run_checked (some s) _) ?_
  -- past the pad, to the proof
  rw [append_assoc (hash _).toList, ← append_assoc x.initiator.pad]
  refine run_bind_silent (run_scanFor ?_ hsync ?_ _) ?_
  · exact ne_nil_of_length_eq_add_one (List.Vector.toList_length _)
  · rw [List.Vector.toList_length]
    exact Nat.add_le_add_right hx.initiator_pad 20
  refine run_bind_silent (run_readExact (length_proof s x.infoHash) _) ?_
  rw [find_proof hx]
  exact run_openRequest hx

theorem respond_sends (h : x.Agreed ya yb s) : [x.reply yb] <+: (x.respond.run ya.toList).sent := by
  have hya : ya.toList = ya.toList.take x.ahead ++ ya.toList.drop x.ahead :=
    (take_append_drop ..).symm
  obtain ⟨hfirst, hrest⟩ := length_ahead hx ya
  unfold Setting.respond respondWithPad
  rw [hya, sent_bind_silent (run_readExact hfirst _), hfirst,
    sent_bind_silent (run_readExact_all hrest), h.responder_public,
    sent_bind_silent (run_checked yb _), sent_bind_write]
  exact prefix_append [_] _

end

end Ends

end BitTorrent.Mse
