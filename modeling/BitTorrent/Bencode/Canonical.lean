import BitTorrent.Bencode.Decoder
import BitTorrent.Common.Fallible

/-!
# The strict decoder inverts the encoder

Each function of the decoder succeeds on exactly the encodings of what it decodes, followed by the
rest it returns: the strict one of values in order, the lenient one of any, of which it keeps the
first entry for each key.
-/

namespace BitTorrent.Bencode

open List Decimal

variable {t : UInt8} {x rest ds b : List UInt8} {i : Int64} {n : ℕ}

theorem scanDigits_eq_ok_iff (ht : isDigit t = false) : scanDigits t x = .ok (ds, rest) ↔
      x = ds ++ t :: rest ∧ ∀ b ∈ ds, isDigit b = true := by
  induction x generalizing ds with
  | nil => simp [scanDigits]
  | cons c x ih =>
    unfold scanDigits
    by_cases hc : c = t
    · subst hc
      rw [if_pos rfl]
      cases ds with
      | nil => simp
      | cons d ds =>
        -- the terminator is no digit, so a digit cannot stand there
        simp only [Except.ok.injEq, Prod.mk.injEq, nil_eq, reduceCtorEq, false_and,
          cons_append, List.cons.injEq, false_iff, not_and]
        rintro ⟨rfl, -⟩ hd
        simp [ht] at hd
    · rw [if_neg hc]
      cases ds with
      | nil =>
        split
        · simp only [bind_eq_ok_iff]
          simp [pure, Except.pure, hc]
        · simp [hc]
      | cons d ds =>
        split
        · rename_i hd
          simp only [bind_eq_ok_iff, Prod.exists, pure, Except.pure, Except.ok.injEq,
            Prod.mk.injEq, List.cons.injEq, cons_append, forall_mem_cons]
          constructor
          · rintro ⟨ds', r', hscan, ⟨rfl, rfl⟩, rfl⟩
            obtain ⟨rfl, hall⟩ := ih.1 hscan
            exact ⟨⟨rfl, rfl⟩, hd, hall⟩
          · rintro ⟨⟨rfl, hx⟩, -, hall⟩
            exact ⟨ds, rest, ih.2 ⟨hx, hall⟩, ⟨rfl, rfl⟩, rfl⟩
        · rename_i hd
          simp only [reduceCtorEq, cons_append, List.cons.injEq, forall_mem_cons,
            false_iff, not_and]
          rintro ⟨rfl, -⟩ hd'
          exact absurd hd' hd

variable {negative : Bool}

theorem parseI64_eq_some_iff : parseI64 negative ds = some i ↔
      i.toInt = if negative then -(value ds : ℤ) else value ds := by
  have hlo := i.le_toInt
  have hhi := i.toInt_lt
  simp only [parseI64]
  generalize (if negative then -(value ds : ℤ) else value ds) = j
  split
  · rename_i hj
    rw [Option.some.injEq, ← Int64.toInt_inj, Int64.toInt_ofInt_of_le hj.1 hj.2, eq_comm]
  · rename_i hj
    simp only [reduceCtorEq, false_iff]
    rintro rfl
    exact hj ⟨hlo, hhi⟩

theorem exists_numeral_eq_cons (n : ℕ) : ∃ d ds, numeral n = d :: ds ∧ isDigit d = true := by
  obtain ⟨hne, hdigit, -⟩ := canonical_numeral n
  obtain ⟨d, ds, heq⟩ := exists_cons_of_ne_nil hne
  exact ⟨d, ds, heq, hdigit d (by rw [heq]; simp)⟩

theorem parseDigitsUntil_eq_ok_iff (ht : isDigit t = false) :
    parseDigitsUntil t negative x = .ok (i, rest) ↔
      x = numeral i.toInt.natAbs ++ t :: rest ∧ (negative = true ↔ i.toInt < 0) := by
  simp only [parseDigitsUntil, bind_eq_ok_iff, Prod.exists, check_eq_ok_iff,
    scanDigits_eq_ok_iff ht]
  constructor
  · rintro ⟨ds, r, ⟨rfl, hall⟩, hne, hlead, hzero, hparse⟩
    have hcanon : Decimal.Canonical ds := ⟨hne, hall, fun h₁ h₂ => hlead ⟨h₁, h₂⟩⟩
    split at hparse
    · rename_i j hj
      obtain ⟨rfl, rfl⟩ : j = i ∧ r = rest := by simpa using hparse
      have hval := parseI64_eq_some_iff.1 hj
      cases negative with
      | false =>
        rw [if_neg (by simp)] at hval
        refine ⟨?_, by simp [hval]⟩
        rw [hval, Int.natAbs_natCast, numeral_value hcanon]
      | true =>
        rw [if_pos rfl] at hval
        -- a value of zero would have the digits of zero
        have hpos : value ds ≠ 0 := by
          intro h0
          have hds := numeral_value hcanon
          rw [h0] at hds
          exact hzero ⟨hds.symm, rfl⟩
        refine ⟨?_, by simp only [true_iff]; omega⟩
        rw [hval, Int.natAbs_neg, Int.natAbs_natCast, numeral_value hcanon]
    · cases hparse
  · rintro ⟨rfl, hneg⟩
    obtain ⟨hne, hall, hlead⟩ := canonical_numeral i.toInt.natAbs
    refine ⟨_, rest, ⟨rfl, hall⟩, hne, fun h => hlead h.1 h.2, ?_, ?_⟩
    · rintro ⟨hds, hn⟩
      have hval := value_numeral i.toInt.natAbs
      rw [hds] at hval
      have h48 : value [48] = 0 := rfl
      have := hneg.1 hn
      omega
    · have hparse : parseI64 negative (numeral i.toInt.natAbs) = some i := by
        rw [parseI64_eq_some_iff, value_numeral]
        cases negative with
        | false =>
          have : ¬ i.toInt < 0 := by simpa using hneg
          simp only [Bool.false_eq_true, ↓reduceIte]
          omega
        | true =>
          have : i.toInt < 0 := by simpa using hneg
          simp only [↓reduceIte]
          omega
      rw [hparse]

theorem parseSignedUntil_eq_ok_iff (ht : isDigit t = false) :
    parseSignedUntil t x = .ok (i, rest) ↔ x = signedNumeral i.toInt ++ t :: rest := by
  cases x with
  | nil =>
    simp [parseSignedUntil, peek, bind_eq_ok_iff]
  | cons c x =>
    obtain ⟨d, ds, hnum, hdigit⟩ := exists_numeral_eq_cons i.toInt.natAbs
    have hd : d ≠ minus := by
      rintro rfl
      exact absurd hdigit (by decide)
    simp only [parseSignedUntil, peek, bind_eq_ok_iff, Except.ok.injEq, exists_eq_left',
      signedNumeral]
    by_cases hc : c = minus
    · rw [if_pos hc, tail_cons, parseDigitsUntil_eq_ok_iff ht]
      by_cases hi : i.toInt < 0
      · simp [hi, hc]
      · simp [hi, hc, hnum, Ne.symm hd]
    · rw [if_neg hc, parseDigitsUntil_eq_ok_iff ht]
      by_cases hi : i.toInt < 0
      · simp [hi, hc]
      · simp [hi]

theorem decodeBytes_eq_ok_iff (hx : x.length < 2 ^ 63) :
    decodeBytes x = .ok (b, rest) ↔ x = encodeBytes b ++ rest := by
  simp only [decodeBytes, bind_eq_ok_iff, Prod.exists, check_eq_ok_iff,
    parseSignedUntil_eq_ok_iff (t := colon) rfl, advance, Except.ok.injEq, Prod.mk.injEq]
  constructor
  · rintro ⟨len, r, rfl, hneg, hlen, rfl, rfl⟩
    have h0 : ¬ len.toInt < 0 := by simpa [Int64.lt_iff_toInt_lt] using hneg
    have hl : (r.take len.toInt.toNat).length = len.toInt.natAbs := by
      rw [length_take]
      omega
    rw [signedNumeral, if_neg h0, encodeBytes, hl]
    simp
  · rintro rfl
    have hb : (b.length : ℤ) < 2 ^ 63 := by
      simp only [encodeBytes, length_append, length_cons] at hx
      omega
    have hi : (Int64.ofInt b.length).toInt = b.length := Int64.toInt_ofInt_of_le (by omega) hb
    refine ⟨Int64.ofInt b.length, b ++ rest, ?_, ?_, ?_, ?_, ?_⟩
    · rw [hi, signedNumeral, if_neg (by omega), encodeBytes]
      simp
    · rw [Int64.lt_iff_toInt_lt, hi]
      simp
    · simp [hi]
    · simp [hi]
    · simp [hi]

mutual

/-- What is kept of a value as it is written: of every dict the first entry
for each key, in the order of the keys. -/
def kept : Bencode → Bencode
  | int i => int i
  | bytes b => bytes b
  | list items => list (keptItems items)
  | dict entries => dict (keptEntries [] entries)

/-- What is kept of the items of a list. -/
def keptItems : List Bencode → List Bencode
  | [] => []
  | v :: vs => kept v :: keptItems vs

/-- What is kept of entries, after those of the map. -/
def keptEntries (map : Entries) : Entries → Entries
  | [] => map
  | (k, v) :: es => keptEntries (orInsert k (kept v) map) es

end

/-- What the spec of a decoder of values says: it succeeds on the
encodings of values nested at most `n` deep, ordered ones if it is strict,
and gives what is kept of them. -/
def DecodesTo (strict : Bool) (n : ℕ)
    (item : List UInt8 → Except DecodeError (Bencode × List UInt8)) : Prop :=
  ∀ x v rest, x.length < 2 ^ 63 → (item x = .ok (v, rest) ↔
    ∃ w, x = encode w ++ rest ∧ w.depth ≤ n ∧ (strict = true → w.Ordered) ∧ v = w.kept)

theorem exists_encode_eq_cons (v : Bencode) : ∃ c y, encode v = c :: y ∧ c ≠ tagEnd := by
  cases v with
  | int i => exact ⟨_, _, by rw [encode], by decide⟩
  | bytes b =>
    obtain ⟨d, ds, hnum, hdigit⟩ := exists_numeral_eq_cons b.length
    refine ⟨d, _, by rw [encode, encodeBytes, hnum, cons_append], ?_⟩
    rintro rfl
    exact absurd hdigit (by decide)
  | list | dict => exact ⟨_, _, by rw [encode], by decide⟩

theorem encode_ne_nil (v : Bencode) : encode v ≠ [] := by
  obtain ⟨c, y, henc, -⟩ := exists_encode_eq_cons v
  simp [henc]

theorem exists_encodeBytes_eq_cons (k : List UInt8) :
    ∃ c y, encodeBytes k = c :: y ∧ c ≠ tagEnd := by
  have := exists_encode_eq_cons (bytes k)
  rwa [encode] at this

variable {strict : Bool} {item : List UInt8 → Except DecodeError (Bencode × List UInt8)}

theorem decodeItems_eq_ok_iff (hitem : DecodesTo strict n item) {fuel : ℕ} (hfuel : x.length < fuel)
    (hx : x.length < 2 ^ 63) {vs : List Bencode} :
    decodeItems item fuel x = .ok (vs, rest) ↔
      ∃ ws, x = encodeItems ws ++ tagEnd :: rest ∧ depthItems ws ≤ n ∧
        (strict = true → OrderedItems ws) ∧ vs = keptItems ws := by
  induction fuel generalizing x vs with
  | zero => omega
  | succ fuel ih =>
    cases x with
    | nil => simp [decodeItems, peek, bind_eq_ok_iff]
    | cons c x =>
      simp only [decodeItems, peek, bind_eq_ok_iff, Except.ok.injEq, exists_eq_left']
      by_cases hc : c = tagEnd
      · rw [if_pos hc]
        simp only [pure, Except.pure, Except.ok.injEq, Prod.mk.injEq, tail_cons]
        constructor
        · rintro ⟨rfl, rfl⟩
          exact ⟨[], by simp [encodeItems, hc], Nat.zero_le n, fun _ => trivial, rfl⟩
        · rintro ⟨ws, hws, -, -, rfl⟩
          cases ws with
          | nil => simpa [encodeItems, hc, keptItems] using hws
          | cons w ws =>
            obtain ⟨d, y, henc, hd⟩ := exists_encode_eq_cons w
            simp [encodeItems, henc, hc, Ne.symm hd] at hws
      · rw [if_neg hc]
        simp only [bind_eq_ok_iff, Prod.exists, hitem (c :: x) _ _ hx, pure, Except.pure,
          Except.ok.injEq, Prod.mk.injEq]
        constructor
        · rintro ⟨v, r, ⟨w, hxw, hdw, how, rfl⟩, vs', r', hvs, rfl, rfl⟩
          obtain ⟨d, y, henc, -⟩ := exists_encode_eq_cons w
          have hlen := congrArg length hxw
          simp only [length_cons, length_append, henc] at hlen hx hfuel
          obtain ⟨ws, rfl, hds, hos, rfl⟩ := (ih (by omega) (by omega)).1 hvs
          exact ⟨w :: ws, by simp [encodeItems, hxw], max_le hdw hds, fun h => ⟨how h, hos h⟩, rfl⟩
        · rintro ⟨ws, hws, hds, hos, rfl⟩
          cases ws with
          | nil => simp [encodeItems, hc] at hws
          | cons w ws =>
            obtain ⟨d, y, henc, -⟩ := exists_encode_eq_cons w
            simp only [encodeItems, append_assoc] at hws
            have hlen := congrArg length hws
            simp only [length_cons, length_append, henc] at hlen hx hfuel
            rw [depthItems] at hds
            exact ⟨_, _, ⟨w, hws, by omega, fun h => (hos h).1, rfl⟩, _, rest,
              (ih (by simp; omega) (by simp; omega)).2
                ⟨ws, rfl, by omega, fun h => (hos h).2, rfl⟩, rfl, rfl⟩

variable {map : Entries} {key : List UInt8} {v : Bencode}

theorem orInsert_of_lt (h : ∀ e ∈ map, e.1 < key) : orInsert key v map = map ++ [(key, v)] := by
  induction map with
  | nil => rfl
  | cons e map ih =>
    have he : e.1 < key := h e (by simp)
    rw [orInsert, if_neg (List.lt_asymm he), if_neg, ih fun e' he' => h e' (by simp [he'])]
    · rfl
    · rintro rfl
      exact List.lt_irrefl _ he

mutual

theorem kept_of_ordered : ∀ v : Bencode, v.Ordered → v.kept = v
  | int _, _ => rfl
  | bytes _, _ => rfl
  | list items, h => by rw [kept, keptItems_of_ordered items h]
  | dict es, h => by rw [kept, keptEntries_of_ordered es h.2 h.1 (by simp), nil_append]

theorem keptItems_of_ordered : ∀ vs : List Bencode, OrderedItems vs → keptItems vs = vs
  | [], _ => rfl
  | v :: vs, h => by rw [keptItems, kept_of_ordered v h.1, keptItems_of_ordered vs h.2]

theorem keptEntries_of_ordered {map : Entries} :
    ∀ es : Entries, OrderedEntries es → (es.map Prod.fst).Pairwise (· < ·) →
      (∀ e ∈ map, ∀ e' ∈ es, e.1 < e'.1) → keptEntries map es = map ++ es
  | [], _, _, _ => (append_nil map).symm
  | (k, v) :: es, h, hkeys, hlt => by
    rw [map_cons, pairwise_cons] at hkeys
    rw [keptEntries, kept_of_ordered v h.1, orInsert_of_lt fun e he => hlt e he _ mem_cons_self,
      keptEntries_of_ordered es h.2 hkeys.2, append_assoc, singleton_append]
    exact forall_mem_append.2 ⟨fun e he e' he' => hlt e he e' (mem_cons_of_mem _ he'),
      forall_mem_singleton.2 fun e' he' => hkeys.1 _ (mem_map_of_mem he')⟩

end

variable {last : Option (List UInt8)}

theorem above_cons {es : Entries} (hlt : ∀ k, last = some k → k < key)
    (hkes : ∀ e ∈ es, key < e.1) (hpes : (es.map Prod.fst).Pairwise (· < ·)) :
    (((key, v) :: es).map Prod.fst).Pairwise (· < ·) ∧
      ∀ k, last = some k → ∀ e ∈ (key, v) :: es, k < e.1 := by
  constructor
  · rw [map_cons, pairwise_cons]
    refine ⟨fun k hk => ?_, hpes⟩
    obtain ⟨e, he, rfl⟩ := mem_map.1 hk
    exact hkes e he
  · intro k hk e he
    rcases mem_cons.1 he with rfl | he
    · exact hlt k hk
    · exact List.lt_trans (hlt k hk) (hkes e he)

theorem decodeEntries_eq_ok_iff (hitem : DecodesTo strict n item) {fuel : ℕ}
    (hfuel : x.length < fuel) (hx : x.length < 2 ^ 63) {out : Entries} :
    decodeEntries strict item fuel last map x = .ok (out, rest) ↔
      ∃ es, x = encodeEntries es ++ tagEnd :: rest ∧ depthEntries es ≤ n ∧
        (strict = true → OrderedEntries es ∧ (es.map Prod.fst).Pairwise (· < ·) ∧
          ∀ k, last = some k → ∀ e ∈ es, k < e.1) ∧ out = keptEntries map es := by
  induction fuel generalizing x last map with
  | zero => omega
  | succ fuel ih =>
    cases x with
    | nil => simp [decodeEntries, peek, bind_eq_ok_iff]
    | cons c x =>
      simp only [decodeEntries, peek, bind_eq_ok_iff, Except.ok.injEq, exists_eq_left']
      by_cases hc : c = tagEnd
      · rw [if_pos hc]
        simp only [pure, Except.pure, Except.ok.injEq, Prod.mk.injEq, tail_cons]
        constructor
        · rintro ⟨rfl, rfl⟩
          exact ⟨[], by simp [encodeEntries, hc], Nat.zero_le n,
            fun _ => ⟨trivial, .nil, by simp⟩, rfl⟩
        · rintro ⟨es, hes, -, -, rfl⟩
          cases es with
          | nil => simpa [encodeEntries, hc, keptEntries] using hes
          | cons e es =>
            obtain ⟨d, y, henc, hd⟩ := exists_encodeBytes_eq_cons e.1
            simp [encodeEntries, henc, hc, Ne.symm hd] at hes
      · rw [if_neg hc]
        simp only [bind_eq_ok_iff, Prod.exists, check_eq_ok_iff, decodeBytes_eq_ok_iff hx]
        constructor
        · rintro ⟨key, r₁, hkey, hlast, v, r₂, hv, hrest⟩
          obtain ⟨d, y, henc, -⟩ := exists_encodeBytes_eq_cons key
          have hlen := congrArg length hkey
          simp only [length_cons, length_append, henc] at hlen hx hfuel
          obtain ⟨w, rfl, hdw, how, rfl⟩ := (hitem r₁ v r₂ (by omega)).1 hv
          simp only [length_append] at hlen
          obtain ⟨es, rfl, hdes, hes, rfl⟩ := (ih (by omega) (by omega)).1 hrest
          refine ⟨(key, w) :: es, by simp [encodeEntries, hkey], max_le hdw hdes, fun h => ?_, rfl⟩
          subst h
          have hlt : ∀ k, last = some k → k < key := by
            rintro k rfl
            simpa using hlast
          obtain ⟨hoes, hpes, hkes⟩ := hes rfl
          exact ⟨⟨how rfl, hoes⟩, above_cons hlt (hkes key rfl) hpes⟩
        · rintro ⟨es, hes, hdes, hoes, rfl⟩
          cases es with
          | nil => simp [encodeEntries, hc] at hes
          | cons e es =>
            obtain ⟨key, w⟩ := e
            obtain ⟨d, y, henc, -⟩ := exists_encodeBytes_eq_cons key
            simp only [encodeEntries, append_assoc] at hes
            have hlen := congrArg length hes
            simp only [length_cons, length_append, henc] at hlen hx hfuel
            rw [depthEntries] at hdes
            refine ⟨key, _, hes, ?_, _, _,
              (hitem _ _ _ (by simp only [length_append, length_cons]; omega)).2
                ⟨w, rfl, by omega, fun h => (hoes h).1.1, rfl⟩,
              (ih (by simp; omega) (by simp; omega)).2 ⟨es, rfl, by omega, fun h => ?_, rfl⟩⟩
            · cases strict with
              | false => simp
              | true =>
                cases last with
                | none => simp
                | some k => simpa using (hoes rfl).2.2 k rfl (key, w) mem_cons_self
            · obtain ⟨hord, hkeys, -⟩ := hoes h
              rw [map_cons, pairwise_cons] at hkeys
              refine ⟨hord.2, hkeys.2, fun k hk e he => ?_⟩
              rw [if_pos h] at hk
              cases hk
              exact hkeys.1 e.1 (mem_map_of_mem he)

variable {c : UInt8}

theorem decodeScalar_eq_ok_iff (hx : (c :: x).length < 2 ^ 63)
    (hl : c ≠ tagList) (hd : c ≠ tagDict) :
    decodeScalar c (c :: x) = .ok (v, rest) ↔
      c :: x = encode v ++ rest ∧ v.depth ≤ n ∧ v.Ordered := by
  unfold decodeScalar
  cases v with
  | int i =>
    by_cases hc : c = tagInt
    · simp [hc, bind_eq_ok_iff, decodeInt, parseSignedUntil_eq_ok_iff (t := tagEnd) rfl, pure,
        Except.pure, encode, depth, Ordered]
    · rw [if_neg hc]
      split <;> simp [bind_eq_ok_iff, pure, Except.pure, encode, hc]
  | bytes b =>
    obtain ⟨d, ds, hnum, hdigit⟩ := exists_numeral_eq_cons b.length
    by_cases hc : c = tagInt
    · have hne : tagInt ≠ d := by
        rintro rfl
        exact absurd hdigit (by decide)
      simp [hc, bind_eq_ok_iff, pure, Except.pure, encode, encodeBytes, hnum, hne]
    · rw [if_neg hc]
      split
      · simp [bind_eq_ok_iff, decodeBytes_eq_ok_iff hx, pure, Except.pure, encode, depth, Ordered]
      · rename_i hcd
        have hne : c ≠ d := by
          rintro rfl
          exact hcd hdigit
        simp [encode, encodeBytes, hnum, hne]
  | list items =>
    split
    · simp [bind_eq_ok_iff, pure, Except.pure, encode, hl]
    · split <;> simp [bind_eq_ok_iff, pure, Except.pure, encode, hl]
  | dict entries =>
    split
    · simp [bind_eq_ok_iff, pure, Except.pure, encode, hd]
    · split <;> simp [bind_eq_ok_iff, pure, Except.pure, encode, hd]

theorem tag_of_encode (h : c :: x = encode v ++ rest) :
    (c = tagList ↔ ∃ items, v = list items) ∧ (c = tagDict ↔ ∃ entries, v = dict entries) := by
  cases v with
  | int i =>
    obtain rfl : c = tagInt := (List.cons.inj (by simpa [encode] using h)).1
    exact ⟨by simp [tagInt, tagList], by simp [tagInt, tagDict]⟩
  | bytes b =>
    obtain ⟨d, ds, hnum, hdigit⟩ := exists_numeral_eq_cons b.length
    obtain rfl : c = d := (List.cons.inj (by simpa [encode, encodeBytes, hnum] using h)).1
    have hl : c ≠ tagList := by
      rintro rfl
      exact absurd hdigit (by decide)
    have hd : c ≠ tagDict := by
      rintro rfl
      exact absurd hdigit (by decide)
    simp [hl, hd]
  | list items =>
    obtain rfl : c = tagList := (List.cons.inj (by simpa [encode] using h)).1
    simp [tagList, tagDict]
  | dict entries =>
    obtain rfl : c = tagDict := (List.cons.inj (by simpa [encode] using h)).1
    simp [tagList, tagDict]

theorem decodeScalar_decodesTo (hx : (c :: x).length < 2 ^ 63)
    (hl : c ≠ tagList) (hd : c ≠ tagDict) :
    decodeScalar c (c :: x) = .ok (v, rest) ↔ ∃ w, c :: x = encode w ++ rest ∧ w.depth ≤ n ∧
      (strict = true → w.Ordered) ∧ v = w.kept := by
  rw [decodeScalar_eq_ok_iff hx hl hd]
  constructor
  · rintro ⟨hxv, hdepth, hord⟩
    exact ⟨v, hxv, hdepth, fun _ => hord, (kept_of_ordered v hord).symm⟩
  · rintro ⟨w, hxw, hdepth, -, rfl⟩
    obtain ⟨hlist, hdict⟩ := tag_of_encode hxw
    cases w with
    | int | bytes => exact ⟨hxw, hdepth, trivial⟩
    | list items => exact absurd (hlist.2 ⟨items, rfl⟩) hl
    | dict entries => exact absurd (hdict.2 ⟨entries, rfl⟩) hd

theorem decodeValue_decodesTo (strict : Bool) (n : ℕ) :
    DecodesTo strict n (decodeValue strict n) := by
  induction n with
  | zero =>
    intro x v rest hx
    cases x with
    | nil => simp [decodeValue, peek, bind_eq_ok_iff, encode_ne_nil]
    | cons c x =>
      simp only [decodeValue, peek, bind_eq_ok_iff, Except.ok.injEq, exists_eq_left',
        check_eq_ok_iff, not_or]
      constructor
      · rintro ⟨⟨hl, hd⟩, h⟩
        exact (decodeScalar_decodesTo hx hl hd).1 h
      · rintro ⟨w, hxw, hdepth, h⟩
        obtain ⟨hlist, hdict⟩ := tag_of_encode hxw
        -- a list or a dict is nested one deep at least
        have hl : c ≠ tagList := by
          rw [Ne, hlist]
          rintro ⟨items, rfl⟩
          simp [depth] at hdepth
        have hd : c ≠ tagDict := by
          rw [Ne, hdict]
          rintro ⟨entries, rfl⟩
          simp [depth] at hdepth
        exact ⟨⟨hl, hd⟩, (decodeScalar_decodesTo hx hl hd).2 ⟨w, hxw, hdepth, h⟩⟩
  | succ n ih =>
    intro x v rest hx
    cases x with
    | nil => simp [decodeValue, peek, bind_eq_ok_iff, encode_ne_nil]
    | cons c x =>
      have hfuel : x.length < (c :: x).length := by simp
      have hx' : x.length < 2 ^ 63 := hfuel.trans hx
      simp only [decodeValue, peek, bind_eq_ok_iff, Except.ok.injEq, exists_eq_left']
      by_cases hl : c = tagList
      · rw [if_pos hl]
        simp only [bind_eq_ok_iff, Prod.exists, tail_cons,
          decodeItems_eq_ok_iff ih hfuel hx', pure, Except.pure, Except.ok.injEq, Prod.mk.injEq]
        constructor
        · rintro ⟨_, r, ⟨ws, hxs, hdepth, hord, rfl⟩, rfl, rfl⟩
          exact ⟨list ws, by simp [encode, hl, hxs], Nat.succ_le_succ hdepth, hord, rfl⟩
        · rintro ⟨w, hxw, hdepth, hord, rfl⟩
          obtain ⟨ws, rfl⟩ := (tag_of_encode hxw).1.1 hl
          exact ⟨_, rest, ⟨ws, by simpa [encode, hl] using hxw, Nat.le_of_succ_le_succ hdepth, hord,
            rfl⟩, rfl, rfl⟩
      · rw [if_neg hl]
        by_cases hd : c = tagDict
        · rw [if_pos hd]
          simp only [bind_eq_ok_iff, Prod.exists, tail_cons,
            decodeEntries_eq_ok_iff ih hfuel hx', pure, Except.pure, Except.ok.injEq, Prod.mk.injEq]
          constructor
          · rintro ⟨_, r, ⟨es, hxs, hdepth, hord, rfl⟩, rfl, rfl⟩
            exact ⟨dict es, by simp [encode, hd, hxs], Nat.succ_le_succ hdepth,
              fun h => ⟨(hord h).2.1, (hord h).1⟩, rfl⟩
          · rintro ⟨w, hxw, hdepth, hord, rfl⟩
            obtain ⟨es, rfl⟩ := (tag_of_encode hxw).2.1 hd
            exact ⟨_, rest, ⟨es, by simpa [encode, hd] using hxw, Nat.le_of_succ_le_succ hdepth,
              fun h => ⟨(hord h).2, (hord h).1, nofun⟩, rfl⟩, rfl, rfl⟩
        · rw [if_neg hd]
          exact decodeScalar_decodesTo hx hl hd

theorem decodeValue_encode (hlen : (encode v ++ rest).length < 2 ^ 63) (hdepth : v.depth ≤ n)
    (hord : v.Ordered) : decodeValue strict n (encode v ++ rest) = .ok (v, rest) :=
  (decodeValue_decodesTo strict n _ _ _ hlen).2
    ⟨v, rfl, hdepth, fun _ => hord, (kept_of_ordered v hord).symm⟩

theorem decodeTopLevel_eq_ok_iff (strict : Bool) (x : Slice) (v : Bencode) :
    decodeTopLevel strict x.1 = .ok v ↔ ∃ w, x.1 = encode w ∧ w.depth ≤ maxDepth ∧
      (strict = true → w.Ordered) ∧ v = w.kept := by
  simp only [decodeTopLevel, bind_eq_ok_iff, Prod.exists,
    decodeValue_decodesTo strict maxDepth x.1 _ _ x.2]
  constructor
  · rintro ⟨_, r, ⟨w, hx, hw⟩, h⟩
    split at h
    · rename_i hr
      cases h
      exact ⟨w, by rw [hx, hr, append_nil], hw⟩
    · cases h
  · rintro ⟨w, hx, hw⟩
    exact ⟨v, [], ⟨w, by rw [hx, append_nil], hw⟩, rfl⟩

theorem decode_eq_ok_iff (x : Slice) (v : Bencode) :
    decode x = .ok v ↔ x.1 = encode v ∧ v.depth ≤ maxDepth ∧ v.Ordered := by
  rw [decode, decodeTopLevel_eq_ok_iff]
  constructor
  · rintro ⟨w, hx, hdepth, hord, rfl⟩
    rw [kept_of_ordered w (hord rfl)]
    exact ⟨hx, hdepth, hord rfl⟩
  · rintro ⟨hx, hdepth, hord⟩
    exact ⟨v, hx, hdepth, fun _ => hord, (kept_of_ordered v hord).symm⟩

/-- **The strict decoder accepts exactly the canonical encodings.** Over
all byte strings and all values: it returns a value exactly from its
encoding, if that is nested no deeper than the limit; what it returns is
a value of the source; no two byte strings give one value; and both round
trips hold. -/
theorem decode_iff_encode :
    (∀ (x : Slice) (v : BencodeValue),
      decode x = .ok v.1 ↔ x.1 = encode v.1 ∧ v.1.depth ≤ maxDepth) ∧
    (∀ (x : Slice) (v : Bencode), decode x = .ok v → v.Ordered) ∧
    (∀ x : Slice, (∃ v, decode x = .ok v) ↔
      ∃ v : BencodeValue, x.1 = encode v.1 ∧ v.1.depth ≤ maxDepth) ∧
    (∀ (x y : Slice) (v : Bencode), decode x = .ok v → decode y = .ok v → x = y) ∧
    (∀ (x : Slice) (v : Bencode), decode x = .ok v → encode v = x.1) ∧
    ∀ (v : BencodeValue) (h : (encode v.1).length < 2 ^ 63), v.1.depth ≤ maxDepth →
      decode ⟨encode v.1, h⟩ = .ok v.1 := by
  refine ⟨?_, ?_, ?_, ?_, ?_, ?_⟩
  · intro x v
    rw [decode_eq_ok_iff]
    exact ⟨fun h => ⟨h.1, h.2.1⟩, fun h => ⟨h.1, h.2, v.2⟩⟩
  · exact fun x v h => ((decode_eq_ok_iff x v).1 h).2.2
  · intro x
    simp only [decode_eq_ok_iff]
    constructor
    · rintro ⟨v, hx, hdepth, hord⟩
      exact ⟨⟨v, hord⟩, hx, hdepth⟩
    · rintro ⟨v, hx, hdepth⟩
      exact ⟨v.1, hx, hdepth, v.2⟩
  · intro x y v hx hy
    apply Subtype.ext
    rw [((decode_eq_ok_iff x v).1 hx).1, ((decode_eq_ok_iff y v).1 hy).1]
  · exact fun x v h => ((decode_eq_ok_iff x v).1 h).1.symm
  · exact fun v h hdepth => (decode_eq_ok_iff ⟨encode v.1, h⟩ v.1).2 ⟨rfl, hdepth, v.2⟩

end BitTorrent.Bencode
