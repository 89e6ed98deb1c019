import BitTorrent.Common.Double
import BitTorrent.Common.Text

/-!
# Flat JSON objects

`json.rs`: the writer of flat objects and the strict reader of them.
-/

namespace BitTorrent.Json

open List Text

/-- `escape_into` for one character. -/
def escapeChar (c : Char) : Text :=
  if c = '"' then ['\\', '"']
  else if c = '\\' then ['\\', '\\']
  else if c = '\n' then ['\\', 'n']
  else if c = '\r' then ['\\', 'r']
  else if c = '\t' then ['\\', 't']
  else if c = '\x08' then ['\\', 'b']
  else if c = '\x0c' then ['\\', 'f']
  else if c.toNat < 0x20 then
    ['\\', 'u', '0', '0', (c.toNat / 16).digitChar, (c.toNat % 16).digitChar]
  else [c]

def escape (s : Text) : Text := s.flatMap escapeChar

structure Object where
  buf : Text

namespace Object

def new : Object := ⟨[]⟩

variable (o : Object)

def key (key : Text) : Object :=
  ⟨(if o.buf = [] then [] else o.buf ++ [',']) ++ '"' :: escape key ++ ['"', ':']⟩

def string (key value : Text) : Object :=
  ⟨(o.key key).buf ++ '"' :: escape value ++ ['"']⟩

def uint (key : Text) (value : ℕ) : Object :=
  ⟨(o.key key).buf ++ decimal value⟩

def boolean (key : Text) (value : Bool) : Object :=
  ⟨(o.key key).buf ++ if value then ['t', 'r', 'u', 'e'] else ['f', 'a', 'l', 's', 'e']⟩

def null (key : Text) : Object := ⟨(o.key key).buf ++ ['n', 'u', 'l', 'l']⟩

def finish : Text := '{' :: o.buf ++ ['}']

end Object

/-- Why a text is not a flat object. -/
inductive JsonError
  | expected (want : Char) (found : Option Char)
  | expectedCommaOrBrace (found : Option Char)
  | duplicateKey (key : Text)
  | textAfterObject
  | nesting
  | noValue (found : Option Char)
  | leadingZero
  | noDigit
  | noFractionDigit
  | noExponentDigit
  | unterminated
  | controlCharacter
  | badEscape (found : Option Char)
  | notFourHexDigits
  | highSurrogateAlone
  | lowSurrogateAlone
  | notACharacter
deriving DecidableEq

inductive Value
  | string (s : Text)
  | number (n : Double)
  | bool (b : Bool)
  | null
deriving DecidableEq

def skipWs (text : Text) : Text :=
  text.dropWhile fun c => c == ' ' || c == '\t' || c == '\n' || c == '\r'

def expect (want : Char) : Text → Except JsonError Text
  | [] => .error (.expected want none)
  | c :: rest => if c = want then .ok rest else .error (.expected want (some c))

def literal : Text → Text → Except JsonError Text
  | [], text => .ok text
  | want :: word, text => do literal word (← expect want text)

/-- Whether the next character is a digit. -/
def atDigit (text : Text) : Bool := text.head?.any Char.isDigit

/-- What `digits` passes over, and what is left. -/
def digits (text : Text) : Text × Text := (text.takeWhile Char.isDigit, text.dropWhile Char.isDigit)

/-- The digits before the point. -/
def wholePart (text : Text) : Except JsonError (Text × Text) :=
  if text.head? = some '0' then
    if atDigit text.tail then .error .leadingZero else .ok (['0'], text.tail)
  else if atDigit text then .ok (digits text)
  else .error .noDigit

/-- The digits after the point, if there is one. -/
def fractionPart (text : Text) : Except JsonError (Text × Text) :=
  if text.head? = some '.' then
    if atDigit text.tail then .ok (digits text.tail) else .error .noFractionDigit
  else .ok ([], text)

/-- The exponent, if there is one. -/
def exponentPart (text : Text) : Except JsonError (ℤ × Text) :=
  if text.head? = some 'e' ∨ text.head? = some 'E' then
    let sign : ℤ := if text.tail.head? = some '-' then -1 else 1
    let rest := if text.tail.head? = some '-' ∨ text.tail.head? = some '+' then text.tail.tail
      else text.tail
    if atDigit rest then .ok (sign * Nat.ofDigitChars 10 (digits rest).1 0, (digits rest).2)
    else .error .noExponentDigit
  else .ok (0, text)

/-- `parse::<f64>` of a numeral in these parts. -/
def numeralValue (negative : Bool) (whole fraction : Text) (exponent : ℤ) : Double :=
  let magnitude : ℚ :=
    Nat.ofDigitChars 10 (whole ++ fraction) 0 * 10 ^ (exponent - fraction.length)
  Double.nearest (if negative then -magnitude else magnitude)

def number (text : Text) : Except JsonError (Value × Text) := do
  let negative := text.head? == some '-'
  let whole ← wholePart (if negative then text.tail else text)
  let fraction ← fractionPart whole.2
  let exponent ← exponentPart fraction.2
  return (.number (numeralValue negative whole.1 fraction.1 exponent.1), exponent.2)

/-- `hex4`: as many hex digits as are still to come. -/
def hexDigits : ℕ → ℕ → Text → Except JsonError (ℕ × Text)
  | 0, n, text => .ok (n, text)
  | _ + 1, _, [] => .error .notFourHexDigits
  | left + 1, n, c :: rest =>
    match hexValue c with
    | some d => hexDigits left (n * 16 + d) rest
    | none => .error .notFourHexDigits

def fromU32 (code : ℕ) (rest : Text) : Except JsonError (Char × Text) :=
  if code.isValidChar then .ok (Char.ofNat code, rest) else .error .notACharacter

def unicodeEscape (text : Text) : Except JsonError (Char × Text) := do
  let first ← hexDigits 4 0 text
  if 0xD800 ≤ first.1 ∧ first.1 ≤ 0xDBFF then
    let rest ← (expect '\\' first.2 >>= expect 'u').mapError fun _ => .highSurrogateAlone
    let second ← hexDigits 4 0 rest
    if 0xDC00 ≤ second.1 ∧ second.1 ≤ 0xDFFF then
      fromU32 (0x10000 + (first.1 - 0xD800) * 2 ^ 10 + (second.1 - 0xDC00)) second.2
    else .error .highSurrogateAlone
  else if 0xDC00 ≤ first.1 ∧ first.1 ≤ 0xDFFF then .error .lowSurrogateAlone
  else fromU32 first.1 first.2

/-- The character a letter after `\` stands for. -/
def shortEscape (c : Char) : Option Char :=
  if c = '"' ∨ c = '\\' ∨ c = '/' then some c
  else if c = 'b' then some '\x08'
  else if c = 'f' then some '\x0c'
  else if c = 'n' then some '\n'
  else if c = 'r' then some '\r'
  else if c = 't' then some '\t'
  else none

/-- The character an escape stands for, after its `\`. -/
def unescape : Text → Except JsonError (Char × Text)
  | [] => .error (.badEscape none)
  | c :: rest =>
    match shortEscape c with
    | some d => .ok (d, rest)
    | none => if c = 'u' then unicodeEscape rest else .error (.badEscape (some c))

/-- The loop of `string`. A turn takes a character at least, so that a
turn for each of them is enough. -/
def stringLoop : ℕ → Text → Text → Except JsonError (Text × Text)
  | 0, _, _ => .error .unterminated
  | _ + 1, _, [] => .error .unterminated
  | turns + 1, out, c :: rest =>
    if c = '"' then .ok (out, rest)
    else if c = '\\' then do
      let escaped ← unescape rest
      stringLoop turns (out ++ [escaped.1]) escaped.2
    else if c.toNat < 0x20 then .error .controlCharacter
    else stringLoop turns (out ++ [c]) rest

def string (text : Text) : Except JsonError (Text × Text) := do
  let rest ← expect '"' text
  stringLoop rest.length [] rest

def value : Text → Except JsonError (Value × Text)
  | [] => .error (.noValue none)
  | c :: rest =>
    if c = '"' then (string (c :: rest)).map fun r => (.string r.1, r.2)
    else if c = 't' then (literal ['t', 'r', 'u', 'e'] (c :: rest)).map fun r => (.bool true, r)
    else if c = 'f' then
      (literal ['f', 'a', 'l', 's', 'e'] (c :: rest)).map fun r => (.bool false, r)
    else if c = 'n' then (literal ['n', 'u', 'l', 'l'] (c :: rest)).map fun r => (.null, r)
    else if c = '-' ∨ c.isDigit then number (c :: rest)
    else if c = '{' ∨ c = '[' then .error .nesting
    else .error (.noValue (some c))

/-- What is between the braces: the loop of `parse_object`, with a turn
for each character again. -/
def members : ℕ → List (Text × Value) → Text → Except JsonError (List (Text × Value) × Text)
  | 0, _, _ => .error (.expected '"' none)
  | turns + 1, map, text => do
    let key ← string (skipWs text)
    let rest ← expect ':' (skipWs key.2)
    let read ← value (skipWs rest)
    if (map.lookup key.1).isSome then .error (.duplicateKey key.1)
    else
      let map := map ++ [(key.1, read.1)]
      let rest := skipWs read.2
      if rest.head? = some ',' then members turns map rest.tail
      else if rest.head? = some '}' then .ok (map, rest.tail)
      else .error (.expectedCommaOrBrace rest.head?)

def parseObject (text : Text) : Except JsonError (List (Text × Value)) := do
  let rest ← expect '{' (skipWs text)
  let rest := skipWs rest
  let read ← if rest.head? = some '}' then .ok ([], rest.tail) else members rest.length [] rest
  if skipWs read.2 = [] then return read.1 else .error .textAfterObject

section

variable {c : Char} {s out rest : Text} {turns : ℕ}

theorem length_escapeChar_pos : 0 < (escapeChar c).length := by
  unfold escapeChar
  split_ifs <;> simp

theorem length_le_length_escape : s.length ≤ (escape s).length := by
  induction s with
  | nil => simp
  | cons c s ih =>
    have hpos : 0 < (escapeChar c).length := length_escapeChar_pos
    simp only [escape, flatMap_cons, length_append, length_cons] at ih ⊢
    omega

theorem unescape_control (h : c.toNat < 0x20) :
    unescape ('u' :: '0' :: '0' :: (c.toNat / 16).digitChar :: (c.toNat % 16).digitChar :: rest) =
      .ok (c, rest) := by
  have hzero : hexValue '0' = some 0 := by decide
  have hdigits : hexDigits 4 0
      ('0' :: '0' :: (c.toNat / 16).digitChar :: (c.toNat % 16).digitChar :: rest) =
      .ok (c.toNat, rest) := by
    have hsum : ((0 * 16 + 0) * 16 + 0) * 16 + c.toNat / 16 = c.toNat / 16 := by omega
    simp only [hexDigits, hzero, hexValue_digitChar (show c.toNat / 16 < 16 by omega),
      hexValue_digitChar (show c.toNat % 16 < 16 by omega), hsum]
    rw [Nat.div_add_mod']
  have hvalid : c.toNat.isValidChar := .inl (by omega)
  have hshort : shortEscape 'u' = none := by decide
  simp only [unescape, hshort, unicodeEscape, hdigits, if_pos, bind, Except.bind]
  rw [if_neg (by omega), if_neg (by omega), fromU32, if_pos hvalid, Char.ofNat_toNat]

/-- **The three ways a character is written**: after a `\`, by its number,
or as it is. -/
inductive Escapes (c : Char) : Text → Prop
  | short (e : Char) : shortEscape e = some c → 0x20 ≤ e.toNat → Escapes c ['\\', e]
  | control : c.toNat < 0x20 → Escapes c
      ['\\', 'u', '0', '0', (c.toNat / 16).digitChar, (c.toNat % 16).digitChar]
  | plain : c ≠ '"' → c ≠ '\\' → 0x20 ≤ c.toNat → Escapes c [c]

theorem escapes (c : Char) : Escapes c (escapeChar c) := by
  unfold escapeChar
  split_ifs with hquote hslash hnl hcr htab hback hform hcontrol
  on_goal 9 => exact .plain hquote hslash (Nat.not_lt.1 hcontrol)
  on_goal 8 => exact .control hcontrol
  all_goals
    subst c
    exact .short _ (by decide) (by decide)

theorem stringLoop_escapeChar :
    stringLoop (turns + 1) out (escapeChar c ++ rest) = stringLoop turns (out ++ [c]) rest := by
  have h := escapes c
  generalize escapeChar c = text at h
  cases h with
  | short e hshort hle =>
    simp only [cons_append, nil_append]
    rw [stringLoop, if_neg (by decide), if_pos rfl, unescape, hshort]
    rfl
  | control hcontrol =>
    simp only [cons_append, nil_append]
    rw [stringLoop, if_neg (by decide), if_pos rfl, unescape_control hcontrol]
    rfl
  | plain hquote hslash hle =>
    rw [cons_append, nil_append, stringLoop, if_neg hquote, if_neg hslash, if_neg (by omega)]

theorem stringLoop_escape (hturns : s.length < turns) :
    stringLoop turns out (escape s ++ '"' :: rest) = .ok (out ++ s, rest) := by
  induction s generalizing turns out with
  | nil =>
    obtain ⟨turns, rfl⟩ := Nat.exists_eq_succ_of_ne_zero hturns.ne_bot
    simp [escape, stringLoop]
  | cons c s ih =>
    obtain ⟨turns, rfl⟩ := Nat.exists_eq_succ_of_ne_zero (Nat.ne_zero_of_lt hturns)
    have hrest : stringLoop turns (out ++ [c]) (escape s ++ '"' :: rest) =
        .ok (out ++ [c] ++ s, rest) := ih (by simpa using hturns)
    rw [escape, flatMap_cons, append_assoc, stringLoop_escapeChar, ← escape, hrest,
      append_assoc, singleton_append]

theorem string_escape : string ('"' :: (escape s ++ '"' :: rest)) = .ok (s, rest) := by
  have hlen : s.length < (escape s ++ '"' :: rest).length := by
    have hle : s.length ≤ (escape s).length := length_le_length_escape
    simp only [length_append, length_cons]
    omega
  have hloop : stringLoop (escape s ++ '"' :: rest).length [] (escape s ++ '"' :: rest) =
      .ok ([] ++ s, rest) := stringLoop_escape hlen
  simpa [string, expect, bind, Except.bind] using hloop

end

/-- What may come after a value: the next field or the end. -/
def AtEnd (rest : Text) : Prop := rest.head? = some ',' ∨ rest.head? = some '}'

section

variable {rest : Text} {n : ℕ}

theorem AtEnd.atDigit_eq (h : AtEnd rest) : atDigit rest = false := by
  rcases h with h | h <;> rw [atDigit, h] <;> decide

theorem AtEnd.head?_ne (h : AtEnd rest) {c : Char} (hcomma : c ≠ ',') (hbrace : c ≠ '}') :
    rest.head? ≠ some c := by
  intro heq
  rcases h with h | h <;> rw [heq, Option.some.injEq] at h <;> contradiction

theorem AtEnd.skipWs_eq (h : AtEnd rest) : skipWs rest = rest := by
  cases rest with
  | nil => rfl
  | cons c rest =>
    rw [skipWs, dropWhile_cons_of_neg]
    rcases h with h | h <;> rw [head?_cons, Option.some.injEq] at h <;> rw [h] <;> decide

theorem digits_append {ds : Text} (hds : ∀ c ∈ ds, c.isDigit = true)
    (hrest : atDigit rest = false) : digits (ds ++ rest) = (ds, rest) := by
  have hhead : ∀ c, rest.head? = some c → c.isDigit = false := by
    intro c hc
    simpa [atDigit, hc] using hrest
  have htake : rest.takeWhile Char.isDigit = [] := by
    cases rest with
    | nil => rfl
    | cons c rest => rw [takeWhile_cons_of_neg (by simp [hhead c rfl])]
  have hdrop : rest.dropWhile Char.isDigit = rest := by
    cases rest with
    | nil => rfl
    | cons c rest => rw [dropWhile_cons_of_neg (by simp [hhead c rfl])]
  rw [digits, takeWhile_append_of_pos hds, dropWhile_append_of_pos hds, htake, hdrop, append_nil]

theorem head?_decimal_ne (hn : n ≠ 0) : (decimal n).head? ≠ some '0' := by
  induction n using Nat.strong_induction_on with
  | _ n ih =>
    rcases Nat.lt_or_ge n 10 with hlt | hge
    · have hall : ∀ m < 10, m ≠ 0 → (Nat.toDigits 10 m).head? ≠ some '0' := by decide
      exact hall n hlt hn
    · have hdigits : decimal n = decimal (n / 10) ++ [(n % 10).digitChar] :=
        Nat.toDigits_of_base_le (by decide) hge
      rw [hdigits, head?_append_of_ne_nil _ decimal_ne_nil]
      exact ih (n / 10) (by omega) (by omega)

theorem wholePart_decimal (h : AtEnd rest) :
    wholePart (decimal n ++ rest) = .ok (decimal n, rest) := by
  rcases eq_or_ne n 0 with rfl | hn
  · have hzero : decimal 0 = ['0'] := by decide
    simp [wholePart, hzero, h.atDigit_eq]
  · have hhead : (decimal n ++ rest).head? ≠ some '0' := by
      rw [head?_append_of_ne_nil _ decimal_ne_nil]
      exact head?_decimal_ne hn
    have hdigit : atDigit (decimal n ++ rest) = true := by
      obtain ⟨c, hc⟩ := Option.isSome_iff_exists.1 (isSome_head?.2 decimal_ne_nil)
      rw [atDigit, head?_append_of_ne_nil _ decimal_ne_nil, hc]
      exact isDigit_of_mem_decimal (mem_of_head? hc)
    rw [wholePart, if_neg hhead, if_pos hdigit,
      digits_append (fun _ => isDigit_of_mem_decimal) h.atDigit_eq]

theorem number_decimal (h : AtEnd rest) :
    number (decimal n ++ rest) = .ok (.number (Double.nearest n), rest) := by
  have hminus : ((decimal n ++ rest).head? == some '-') = false := by
    rw [head?_append_of_ne_nil _ decimal_ne_nil, beq_eq_false_iff_ne]
    exact fun heq => ne_of_isDigit (isDigit_of_mem_decimal (mem_of_head? heq)) (by decide) rfl
  have hfraction : fractionPart rest = .ok ([], rest) := by
    rw [fractionPart, if_neg (h.head?_ne (by decide) (by decide))]
  have hexponent : exponentPart rest = .ok (0, rest) := by
    rw [exponentPart, if_neg]
    exact not_or.2 ⟨h.head?_ne (by decide) (by decide), h.head?_ne (by decide) (by decide)⟩
  simp only [number, hminus, Bool.false_eq_true, if_false, wholePart_decimal h, hfraction,
    hexponent, bind, Except.bind, pure, Except.pure, numeralValue, append_nil,
    ofDigitChars_decimal]
  simp

end

/-- What the writer puts at a key. -/
inductive Scalar
  | string (s : Text)
  | uint (n : ℕ)
  | boolean (b : Bool)
  | null

namespace Scalar

/-- What stands for it in the text. -/
def text : Scalar → Text
  | string s => '"' :: (escape s ++ ['"'])
  | uint n => decimal n
  | boolean b => if b then ['t', 'r', 'u', 'e'] else ['f', 'a', 'l', 's', 'e']
  | null => ['n', 'u', 'l', 'l']

/-- What it is read back as. -/
def read : Scalar → Value
  | string s => .string s
  | uint n => .number (Double.nearest n)
  | boolean b => .bool b
  | null => .null

end Scalar

/-- A field put in an object. -/
def Object.put (o : Object) (key : Text) : Scalar → Object
  | .string s => o.string key s
  | .uint n => o.uint key n
  | .boolean b => o.boolean key b
  | .null => o.null key

/-- An object made of fields in turn. -/
def Object.putAll (o : Object) (fields : List (Text × Scalar)) : Object :=
  fields.foldl (fun o field => o.put field.1 field.2) o

/-- A field in the text of an object. -/
def fieldText (field : Text × Scalar) : Text :=
  '"' :: (escape field.1 ++ '"' :: ':' :: field.2.text)

/-- The fields after the first one. -/
def moreText (fields : List (Text × Scalar)) : Text :=
  fields.flatMap fun field => ',' :: fieldText field

section

variable {o : Object} {field : Text × Scalar} {fields : List (Text × Scalar)} {rest : Text}

theorem Object.buf_put (key : Text) (v : Scalar) :
    (o.put key v).buf = (if o.buf = [] then [] else o.buf ++ [',']) ++ fieldText (key, v) := by
  cases v <;>
    simp [Object.put, Object.string, Object.uint, Object.boolean, Object.null, Object.key,
      fieldText, Scalar.text]

theorem Object.buf_putAll (h : o.buf ≠ []) : (o.putAll fields).buf = o.buf ++ moreText fields := by
  induction fields generalizing o with
  | nil => simp [putAll, moreText]
  | cons field fields ih =>
    have hbuf : (o.put field.1 field.2).buf = o.buf ++ ',' :: fieldText field := by
      rw [buf_put, if_neg h, append_assoc]
      rfl
    have hrest := ih (o := o.put field.1 field.2) (by simp [hbuf])
    rw [putAll, foldl_cons, ← putAll, hrest, hbuf, moreText, moreText, flatMap_cons, append_assoc]

theorem finish_putAll_cons : (Object.new.putAll (field :: fields)).finish =
      '{' :: (fieldText field ++ (moreText fields ++ ['}'])) := by
  have hbuf : (Object.new.put field.1 field.2).buf = fieldText field := by
    rw [Object.buf_put]
    rfl
  have hall : ((Object.new.put field.1 field.2).putAll fields).buf =
      fieldText field ++ moreText fields := by
    rw [Object.buf_putAll (by rw [hbuf]; exact cons_ne_nil _ _), hbuf]
  rw [Object.putAll, foldl_cons, ← Object.putAll, Object.finish, hall]
  simp

theorem value_text (v : Scalar) (h : AtEnd rest) :
    value (skipWs (v.text ++ rest)) = .ok (v.read, rest) := by
  cases v with
  | string s =>
    have hws : skipWs ((Scalar.string s).text ++ rest) = '"' :: (escape s ++ '"' :: rest) := by
      simp [skipWs, Scalar.text]
    rw [hws, value, if_pos rfl, string_escape]
    rfl
  | uint n =>
    obtain ⟨c, ds, hcons⟩ := exists_cons_of_ne_nil (decimal_ne_nil (n := n))
    have hdigit : c.isDigit = true := isDigit_of_mem_decimal (n := n) (by simp [hcons])
    have hne : ∀ d : Char, d.isDigit = false → c ≠ d := fun d hd => ne_of_isDigit hdigit hd
    have hws : skipWs ((Scalar.uint n).text ++ rest) = c :: (ds ++ rest) := by
      rw [Scalar.text, hcons, cons_append, skipWs, dropWhile_cons_of_neg]
      simp [hne]
    rw [hws, value, if_neg (hne _ (by decide)), if_neg (hne _ (by decide)),
      if_neg (hne _ (by decide)), if_neg (hne _ (by decide)), if_pos (.inr hdigit),
      ← cons_append, ← hcons, number_decimal h]
    rfl
  | boolean b => cases b <;> simp [skipWs, Scalar.text, value, literal, expect, Scalar.read,
      bind, Except.bind, Except.map]
  | null => simp [skipWs, Scalar.text, value, literal, expect, Scalar.read, bind, Except.bind,
      Except.map]

/-- What a field is read back as. -/
def readField (field : Text × Scalar) : Text × Value := (field.1, field.2.read)

variable {map : List (Text × Value)}

theorem members_fieldText {turns : ℕ} (h : AtEnd rest) (hnew : field.1 ∉ map.map Prod.fst) :
    members (turns + 1) map (fieldText field ++ rest) =
      if rest.head? = some ',' then members turns (map ++ [readField field]) rest.tail
      else .ok (map ++ [readField field], rest.tail) := by
  have hws : skipWs (fieldText field ++ rest) =
      '"' :: (escape field.1 ++ '"' :: ':' :: (field.2.text ++ rest)) := by
    simp [skipWs, fieldText]
  have hcolon : skipWs (':' :: (field.2.text ++ rest)) = ':' :: (field.2.text ++ rest) := by
    simp [skipWs]
  have hlookup : (map.lookup field.1).isSome = false := by
    rw [Option.isSome_eq_false_iff, Option.isNone_iff_eq_none, lookup_eq_none_iff]
    intro entry hentry
    rw [bne_iff_ne]
    rintro heq
    exact hnew (heq ▸ mem_map_of_mem hentry)
  simp only [members, hws, string_escape, bind, Except.bind, hcolon, expect, if_true,
    value_text field.2 h, hlookup, Bool.false_eq_true, if_false, h.skipWs_eq, readField]
  rcases h with h | h
  · rw [if_pos h, if_pos h]
  · have hcomma : rest.head? ≠ some ',' := by
      rw [h]
      decide
    rw [if_neg hcomma, if_pos h, if_neg hcomma]

theorem members_fields {turns : ℕ} (hturns : fields.length < turns)
    (hkeys : (map.map Prod.fst ++ (field :: fields).map Prod.fst).Nodup) :
    members turns map (fieldText field ++ (moreText fields ++ '}' :: rest)) =
      .ok (map ++ (field :: fields).map readField, rest) := by
  induction fields generalizing map turns field with
  | nil =>
    obtain ⟨turns, rfl⟩ := Nat.exists_eq_succ_of_ne_zero (Nat.ne_zero_of_lt hturns)
    have hnew : field.1 ∉ map.map Prod.fst := fun hmem =>
      (nodup_append'.1 hkeys).2.2 hmem (by simp)
    rw [moreText, flatMap_nil, nil_append, members_fieldText (.inr rfl) hnew]
    simp
  | cons next fields ih =>
    obtain ⟨turns, rfl⟩ := Nat.exists_eq_succ_of_ne_zero (Nat.ne_zero_of_lt hturns)
    have hnew : field.1 ∉ map.map Prod.fst := fun hmem =>
      (nodup_append'.1 hkeys).2.2 hmem (by simp)
    have hkeys' : ((map ++ [readField field]).map Prod.fst ++
        (next :: fields).map Prod.fst).Nodup := by
      simpa [readField] using hkeys
    have hmore : moreText (next :: fields) ++ '}' :: rest =
        ',' :: (fieldText next ++ (moreText fields ++ '}' :: rest)) := by
      simp [moreText]
    rw [hmore, members_fieldText (.inl rfl) hnew, if_pos head?_cons, tail_cons,
      ih (Nat.lt_of_succ_lt_succ hturns) hkeys', append_assoc]
    rfl

theorem length_le_length_moreText : fields.length ≤ (moreText fields).length := by
  induction fields with
  | nil => simp
  | cons next fields ih =>
    simp only [moreText, flatMap_cons, length_append, length_cons] at ih ⊢
    omega

theorem parseObject_finish (hkeys : (fields.map Prod.fst).Nodup) :
    parseObject (Object.new.putAll fields).finish = .ok (fields.map readField) := by
  cases fields with
  | nil => decide +kernel
  | cons field fields =>
    have hskip : ∀ rest, skipWs (fieldText field ++ rest) = fieldText field ++ rest := by
      intro rest
      simp [skipWs, fieldText]
    have hopen : ∀ rest, skipWs ('{' :: rest) = '{' :: rest := fun rest => by simp [skipWs]
    have hhead : (fieldText field ++ (moreText fields ++ ['}'])).head? ≠ some '}' := by
      simp [fieldText]
    have hlen : fields.length < (fieldText field ++ (moreText fields ++ ['}'])).length := by
      have hle : fields.length ≤ (moreText fields).length := length_le_length_moreText
      simp only [length_append, length_singleton]
      omega
    have hread : members (fieldText field ++ (moreText fields ++ ['}'])).length []
        (fieldText field ++ (moreText fields ++ ['}'])) =
        .ok ([] ++ (field :: fields).map readField, []) :=
      members_fields hlen (by rwa [map_nil, nil_append])
    simp only [finish_putAll_cons, parseObject, hopen, expect, if_true, bind, Except.bind, hskip,
      if_neg hhead, hread]
    rfl

/-! An object is one line: nothing below a blank is in it. -/

variable {d : Char}

theorem le_of_mem_escapeChar {c : Char} (h : d ∈ escapeChar c) : 0x20 ≤ d.toNat := by
  have hescapes := escapes c
  generalize escapeChar c = text at h hescapes
  cases hescapes with
  | short e hshort hle =>
    simp only [mem_cons, not_mem_nil, or_false] at h
    rcases h with rfl | rfl
    · decide
    · exact hle
  | control hcontrol =>
    have hhigh := digitChar_bounds (d := c.toNat / 16) (by omega)
    have hlow := digitChar_bounds (d := c.toNat % 16) (by omega)
    simp only [mem_cons, not_mem_nil, or_false] at h
    rcases h with rfl | rfl | rfl | rfl | rfl | rfl
    all_goals first | decide | omega
  | plain hquote hslash hle => rwa [mem_singleton.1 h]

theorem le_of_mem_escape {s : Text} (h : d ∈ escape s) : 0x20 ≤ d.toNat := by
  obtain ⟨c, -, hc⟩ := mem_flatMap.1 h
  exact le_of_mem_escapeChar hc

theorem Scalar.le_of_mem_text {v : Scalar} (h : d ∈ v.text) : 0x20 ≤ d.toNat := by
  cases v with
  | string s =>
    simp only [text, mem_cons, mem_append, not_mem_nil, or_false] at h
    rcases h with rfl | h | rfl
    · decide
    · exact le_of_mem_escape h
    · decide
  | uint n =>
    have hdigit := toNat_of_isDigit (isDigit_of_mem_decimal h)
    omega
  | boolean b =>
    have hall : ∀ b, ((boolean b).text.all fun d => 0x20 ≤ d.toNat) = true := by decide
    exact of_decide_eq_true (all_eq_true.1 (hall b) d h)
  | null =>
    have hall : (null.text.all fun d => 0x20 ≤ d.toNat) = true := by decide
    exact of_decide_eq_true (all_eq_true.1 hall d h)

theorem le_of_mem_fieldText (h : d ∈ fieldText field) : 0x20 ≤ d.toNat := by
  simp only [fieldText, mem_cons, mem_append] at h
  rcases h with rfl | h | rfl | rfl | h
  · decide
  · exact le_of_mem_escape h
  · decide
  · decide
  · exact Scalar.le_of_mem_text h

theorem le_of_mem_finish (h : d ∈ (Object.new.putAll fields).finish) : 0x20 ≤ d.toNat := by
  cases fields with
  | nil =>
    have hall : ((Object.new.putAll []).finish.all fun d => 0x20 ≤ d.toNat) = true := by decide
    exact of_decide_eq_true (all_eq_true.1 hall d h)
  | cons field fields =>
    simp only [finish_putAll_cons, moreText, mem_cons, mem_append, mem_flatMap,
      not_mem_nil, or_false] at h
    rcases h with rfl | h | ⟨field', -, rfl | h⟩ | rfl
    · decide
    · exact le_of_mem_fieldText h
    · decide
    · exact le_of_mem_fieldText h
    · decide

/-- What was put at a key, as a value. -/
def Scalar.value : Scalar → Value
  | string s => .string s
  | uint n => .number (.finite n)
  | boolean b => .bool b
  | null => .null

/-- **What is put in an object comes back**: the object is one line, with no
control character in it, and is read as the keys and values that were put,
numbers up to `2 ^ 53` being exact. -/
theorem object_reads_back (hkeys : (fields.map Prod.fst).Nodup)
    (hsmall : ∀ key n, (key, .uint n) ∈ fields → n ≤ 2 ^ 53) :
    (∀ d ∈ (Object.new.putAll fields).finish, 0x20 ≤ d.toNat) ∧
    parseObject (Object.new.putAll fields).finish =
      .ok (fields.map fun field => (field.1, field.2.value)) := by
  refine ⟨fun d => le_of_mem_finish, ?_⟩
  rw [parseObject_finish hkeys]
  refine congrArg _ (map_congr_left fun field hfield => ?_)
  obtain ⟨key, v⟩ := field
  cases v with
  | uint n => rw [readField, Scalar.read, Double.nearest_natCast (hsmall key n hfield),
      Scalar.value]
  | _ => rfl

end

theorem object_reads_back_sample : parseObject (Object.new.putAll
    [(['"', '\n'], .string ['\\', '\x01']), (['n'], .uint (2 ^ 53)), ([], .null)]).finish =
    .ok [(['"', '\n'], .string ['\\', '\x01']), (['n'], .number (.finite (2 ^ 53 : ℕ))),
      ([], .null)] := by
  refine (object_reads_back (by decide) fun key n h => ?_).2
  simp only [mem_cons, Prod.mk.injEq, reduceCtorEq, Scalar.uint.injEq, and_false, not_mem_nil,
    or_false, false_or] at h
  exact h.2.le

end BitTorrent.Json
