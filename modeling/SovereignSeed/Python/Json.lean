import SovereignSeed.Python.Text

/-!
# JSON text

The part of `json.dumps` and `json.loads` that flat objects need: strings with
every character outside printable ASCII escaped (`ensure_ascii`), and scalars
between commas and braces.  A character beyond the basic plane is written as two
`\u` escapes, which the reader joins again — and so it does for two surrogates
that stood next to each other in the original.

## Main definitions

* `quote`, `dumps` — the writer.
* `readString`, `loads` — the reader.
* `joinPairs` — what reading does to surrogates.

## Main results

* `readString_quote` — a written string is read as itself, pairs joined.
* `loads_dumps` — **a written object is read back.**
* `joinPairs_eq_self_iff` — when joining changes nothing.
-/

namespace SovereignSeed
namespace Python
namespace Json

/-! ### Writing -/

/-- The hexadecimal digit `d`, in lower case. -/
def hexDigit (d : ℕ) : CodePoint := Fin.ofNat 0x110000 (if d < 10 then 0x30 + d else 0x57 + d)

/-- `\uXXXX`. -/
def unicodeEscape (u : ℕ) : PyStr :=
  [0x5c, 0x75, hexDigit (u / 4096), hexDigit (u / 256 % 16), hexDigit (u / 16 % 16),
    hexDigit (u % 16)]

/-- The characters with an escape of their own, and its letter. -/
def shortEscapes : List (CodePoint × CodePoint) :=
  [(0x22, 0x22), (0x5c, 0x5c), (0x0a, 0x6e), (0x0d, 0x72), (0x09, 0x74), (0x0c, 0x66), (0x08, 0x62)]

/-- `ESCAPE_ASCII` on one character. -/
def escapeChar (c : CodePoint) : PyStr :=
  match shortEscapes.lookup c with
  | some e => [0x5c, e]
  | none =>
    if 0x20 ≤ c.val ∧ c.val ≤ 0x7e then [c]
    else if c.val < 0x10000 then unicodeEscape c.val
    else unicodeEscape (0xd800 + (c.val - 0x10000) / 1024) ++
      unicodeEscape (0xdc00 + (c.val - 0x10000) % 1024)

/-- A string between quotation marks. -/
def quote (s : PyStr) : PyStr := 0x22 :: (s.flatMap escapeChar ++ [0x22])

/-- A value of a flat object: a string, or a number by its token. -/
inductive Scalar
  | str (s : PyStr)
  | num (token : PyStr)
  deriving DecidableEq

def Scalar.dump : Scalar → PyStr
  | .str s => quote s
  | .num token => token

/-- `"key":value`. -/
def dumpMember (m : PyStr × Scalar) : PyStr := quote m.1 ++ 0x3a :: m.2.dump

/-- The members from here on, and the closing brace. -/
def dumpMembers : List (PyStr × Scalar) → PyStr
  | [] => [0x7d]
  | [m] => dumpMember m ++ [0x7d]
  | m :: m' :: ms => dumpMember m ++ 0x2c :: dumpMembers (m' :: ms)

/-- `json.dumps(ms, separators=(",", ":"))` of a flat object. -/
def dumps (ms : List (PyStr × Scalar)) : PyStr := 0x7b :: dumpMembers ms

/-! ### Reading -/

/-- The value of a hexadecimal digit. -/
def hexVal (c : CodePoint) : Option ℕ :=
  if isDigit c then some (c.val - 0x30)
  else if 0x61 ≤ c.val ∧ c.val ≤ 0x66 then some (c.val - 0x57)
  else if 0x41 ≤ c.val ∧ c.val ≤ 0x46 then some (c.val - 0x37)
  else none

/-- The value of four hexadecimal digits. -/
def hexVal4 (a b c d : CodePoint) : Option ℕ :=
  match hexVal a, hexVal b, hexVal c, hexVal d with
  | some i, some j, some k, some l => some (4096 * i + 256 * j + 16 * k + l)
  | _, _, _, _ => none

/-- Put a character before what has been read. -/
def push (c : CodePoint) : Option (PyStr × PyStr) → Option (PyStr × PyStr) :=
  Option.map fun r => (c :: r.1, r.2)

/-- The letters of the escapes, and what they stand for. -/
def escapeLetters : List (CodePoint × CodePoint) := (0x2f, 0x2f) :: shortEscapes.map Prod.swap

/-- A string up to its closing mark, with each `\u` escape as a unit, and the rest. -/
def readBody : PyStr → Option (PyStr × PyStr)
  | [] => none
  | c :: rest =>
    if c = 0x22 then some ([], rest)
    else if c = 0x5c then
      match rest with
      | 0x75 :: h1 :: h2 :: h3 :: h4 :: rest' =>
        (hexVal4 h1 h2 h3 h4).bind fun u => push (Fin.ofNat 0x110000 u) (readBody rest')
      | e :: rest' =>
        match escapeLetters.lookup e with
        | some c => push c (readBody rest')
        | none => none
      | [] => none
    else if c.val < 0x20 then none
    else push c (readBody rest)

/-- Join adjacent halves of a surrogate pair. -/
def joinPairs : PyStr → PyStr
  | [] => []
  | [c] => [c]
  | c :: d :: s =>
    if isHigh c && isLow d then
      Fin.ofNat 0x110000 (0x10000 + 1024 * (c.val - 0xd800) + (d.val - 0xdc00)) :: joinPairs s
    else c :: joinPairs (d :: s)

/-- A quoted string and the rest. -/
def readString : PyStr → Option (PyStr × PyStr)
  | 0x22 :: rest => (readBody rest).map fun r => (joinPairs r.1, r.2)
  | _ => none

/-- A character of a number's token. -/
def isToken (c : CodePoint) : Bool := !(c == 0x2c || c == 0x7d || c == 0x22)

/-- A value and the rest. -/
def readScalar (s : PyStr) : Option (Scalar × PyStr) :=
  match s with
  | 0x22 :: _ => (readString s).map fun r => (.str r.1, r.2)
  | _ => some (.num (s.takeWhile isToken), s.dropWhile isToken)

/-- A member and the rest. -/
def readMember (s : PyStr) : Option ((PyStr × Scalar) × PyStr) :=
  (readString s).bind fun r =>
    match r.2 with
    | 0x3a :: rest => (readScalar rest).map fun v => ((r.1, v.1), v.2)
    | _ => none

/-- At most `n` members up to the closing brace. -/
def readMembers : ℕ → PyStr → Option (List (PyStr × Scalar))
  | 0, _ => none
  | n + 1, s =>
    (readMember s).bind fun r =>
      match r.2 with
      | [0x7d] => some [r.1]
      | 0x2c :: rest => (readMembers n rest).map (r.1 :: ·)
      | _ => none

/-- `json.loads` of a flat object with at least one member. -/
def loads : PyStr → Option (List (PyStr × Scalar))
  | 0x7b :: rest => readMembers rest.length rest
  | _ => none

/-! ### Reading a string back -/

theorem push_eq_some {c : CodePoint} {o : Option (PyStr × PyStr)} {t r : PyStr}
    (h : push c o = some (t, r)) : ∃ u, o = some (u, r) ∧ t = c :: u := by
  obtain ⟨q, hq, heq⟩ := Option.map_eq_some_iff.mp h
  cases heq
  exact ⟨q.1, hq, rfl⟩

/-- The closing mark: what is behind it is not looked at. -/
theorem readBody_mark (rest : PyStr) : readBody (0x22 :: rest) = some ([], rest) := by
  rw [readBody.eq_def]
  rfl

theorem readBody_unit (h1 h2 h3 h4 : CodePoint) (rest : PyStr) :
    readBody (0x5c :: 0x75 :: h1 :: h2 :: h3 :: h4 :: rest) =
      (hexVal4 h1 h2 h3 h4).bind fun u => push (Fin.ofNat 0x110000 u) (readBody rest) := by
  rw [readBody, if_neg (by decide), if_pos rfl]

/-- The letter `u` stands for nothing by itself. -/
theorem ne_u_of_lookup {e c : CodePoint} (h : escapeLetters.lookup e = some c) : e ≠ 0x75 := by
  rintro rfl
  have hnone : escapeLetters.lookup (0x75 : CodePoint) = none := by decide
  rw [hnone] at h
  cases h

/-- An escape of one letter. -/
theorem readBody_letter {e c : CodePoint} (h : escapeLetters.lookup e = some c) (rest : PyStr) :
    readBody (0x5c :: e :: rest) = push c (readBody rest) := by
  have hu := ne_u_of_lookup h
  rw [readBody.eq_def]
  simp only [show (0x5c : CodePoint) ≠ 0x22 by decide, if_false, if_true]
  split
  · next heq => cases heq; exact absurd rfl hu
  · next heq => cases heq; simp only [h]
  · next heq => cases heq

/-- A character that stands for itself. -/
theorem readBody_char {c : CodePoint} (hquote : c ≠ 0x22) (hslash : c ≠ 0x5c)
    (hlow : ¬c.val < 0x20) (rest : PyStr) : readBody (c :: rest) = push c (readBody rest) := by
  rw [readBody.eq_def]
  simp only [hquote, hslash, if_false, if_neg hlow]

/-- Induction on a string that has been read. -/
theorem readBody_rec {P : PyStr → PyStr → PyStr → Prop} (mark : ∀ r, P (0x22 :: r) [] r)
    (unit : ∀ h1 h2 h3 h4 u s t r, hexVal4 h1 h2 h3 h4 = some u → P s t r →
      P (0x5c :: 0x75 :: h1 :: h2 :: h3 :: h4 :: s) (Fin.ofNat 0x110000 u :: t) r)
    (letter : ∀ e c s t r, escapeLetters.lookup e = some c → P s t r →
      P (0x5c :: e :: s) (c :: t) r)
    (char : ∀ c s t r, c ≠ 0x22 → c ≠ 0x5c → ¬c.val < 0x20 → P s t r → P (c :: s) (c :: t) r) :
    ∀ {s t r : PyStr}, readBody s = some (t, r) → P s t r := by
  intro s
  induction s using readBody.induct with
  | case1 => exact nofun
  | case2 rest =>
    intro t r h
    rw [readBody_mark] at h
    cases h
    exact mark rest
  | case3 h1 h2 h3 h4 rest _ ih =>
    intro t r h
    rw [readBody_unit] at h
    obtain ⟨u, hu, h⟩ := Option.bind_eq_some_iff.mp h
    obtain ⟨t, hrest, rfl⟩ := push_eq_some h
    exact unit h1 h2 h3 h4 u rest t r hu (ih hrest)
  | case4 e rest _ c hlookup _ ih =>
    intro t r h
    rw [readBody_letter hlookup] at h
    obtain ⟨t, hrest, rfl⟩ := push_eq_some h
    exact letter e c rest t r hlookup (ih hrest)
  | case5 e rest hne hlookup _ =>
    intro t r h
    rw [readBody.eq_def] at h
    simp only [show (0x5c : CodePoint) ≠ 0x22 by decide, if_false, if_true] at h
    split at h
    · next heq =>
      rw [hlookup] at heq
      cases heq
    · cases h
  | case6 _ =>
    intro t r h
    rw [readBody.eq_def] at h
    cases h
  | case7 c rest hquote hslash hlow =>
    intro t r h
    rw [readBody.eq_def] at h
    simp only [hquote, hslash, if_false, if_pos hlow] at h
    cases h
  | case8 c rest hquote hslash hlow ih =>
    intro t r h
    rw [readBody_char hquote hslash hlow] at h
    obtain ⟨t, hrest, rfl⟩ := push_eq_some h
    exact char c rest t r hquote hslash hlow (ih hrest)

theorem hexVal_hexDigit : ∀ d, d < 16 → hexVal (hexDigit d) = some d := by decide

/-- A `\u` escape is read as its unit. -/
theorem readBody_unicodeEscape {u : ℕ} (h : u < 0x10000) (rest : PyStr) :
    readBody (unicodeEscape u ++ rest) = push (Fin.ofNat 0x110000 u) (readBody rest) := by
  have hval : hexVal4 (hexDigit (u / 4096)) (hexDigit (u / 256 % 16)) (hexDigit (u / 16 % 16))
      (hexDigit (u % 16)) = some u := by
    simp only [hexVal4, hexVal_hexDigit (u / 4096) (by omega),
      hexVal_hexDigit (u / 256 % 16) (by omega), hexVal_hexDigit (u / 16 % 16) (by omega),
      hexVal_hexDigit (u % 16) (by omega), Option.some.injEq]
    omega
  simp only [unicodeEscape, List.cons_append, List.nil_append]
  rw [readBody_unit, hval, Option.bind_some]

/-- The UTF-16 units of a character, surrogates standing for themselves. -/
def units (c : CodePoint) : PyStr :=
  if c.val < 0x10000 then [c]
  else [Fin.ofNat 0x110000 (0xd800 + (c.val - 0x10000) / 1024),
    Fin.ofNat 0x110000 (0xdc00 + (c.val - 0x10000) % 1024)]

/-- The escapes with a letter are read back, and the letter is not `u`. -/
theorem shortEscapes_spec : ∀ p ∈ shortEscapes,
    p.2 ≠ 0x75 ∧ escapeLetters.lookup p.2 = some p.1 ∧ p.1.val < 0x10000 := by
  have hall : shortEscapes.all (fun p => p.2 != 0x75 &&
      escapeLetters.lookup p.2 == some p.1 && decide (p.1.val < 0x10000)) = true := by
    decide
  intro p hp
  simpa [and_assoc] using List.all_eq_true.mp hall p hp

theorem mem_shortEscapes {c e : CodePoint} (h : shortEscapes.lookup c = some e) :
    (c, e) ∈ shortEscapes := by
  obtain ⟨l₁, l₂, heq, -⟩ := List.lookup_eq_some_iff.mp h
  rw [heq]
  simp

/-- What is escaped by nothing else is neither a mark nor a backslash. -/
theorem ne_of_lookup_none {c : CodePoint} (h : shortEscapes.lookup c = none) :
    c ≠ 0x22 ∧ c ≠ 0x5c := by
  constructor <;> rintro rfl <;> exact absurd h (by decide)

/-- An escaped character is read as its units. -/
theorem readBody_escapeChar (c : CodePoint) (rest : PyStr) :
    readBody (escapeChar c ++ rest) = (readBody rest).map fun r => (units c ++ r.1, r.2) := by
  have hc := c.isLt
  cases hl : shortEscapes.lookup c with
  | some e =>
    obtain ⟨-, hback, hlt⟩ := shortEscapes_spec _ (mem_shortEscapes hl)
    simp only [escapeChar, hl, units, if_pos hlt, List.cons_append, List.nil_append]
    rw [readBody_letter hback, push]
  | none =>
    obtain ⟨hquote, hslash⟩ := ne_of_lookup_none hl
    simp only [escapeChar, hl]
    split
    · next hprint =>
      rw [List.cons_append, List.nil_append, readBody_char hquote hslash (by omega), units,
        if_pos (show c.val < 0x10000 by omega)]
      rfl
    · split
      · next hlt =>
        rw [readBody_unicodeEscape hlt, units, if_pos hlt, Fin.ofNat_val_eq_self]
        rfl
      · next hge =>
        rw [List.append_assoc, readBody_unicodeEscape (by omega), readBody_unicodeEscape (by omega),
          units, if_neg hge, push, push, Option.map_map]
        rfl

/-- A string's escapes are read as its units. -/
theorem readBody_flatMap (s rest : PyStr) :
    readBody (s.flatMap escapeChar ++ 0x22 :: rest) = some (s.flatMap units, rest) := by
  induction s with
  | nil => rw [List.flatMap_nil, List.nil_append, readBody_mark]; rfl
  | cons c s ih =>
    rw [List.flatMap_cons, List.append_assoc, readBody_escapeChar, ih]
    rfl

/-! ### Surrogate pairs -/

/-- The two units of a character beyond the basic plane join to it. -/
theorem joinPairs_astral {c : CodePoint} (h : ¬c.val < 0x10000) (s : PyStr) :
    joinPairs (units c ++ s) = c :: joinPairs s := by
  have hc := c.isLt
  have hhi : (Fin.ofNat 0x110000 (0xd800 + (c.val - 0x10000) / 1024)).val =
      0xd800 + (c.val - 0x10000) / 1024 := by
    rw [Fin.val_ofNat, Nat.mod_eq_of_lt (by omega)]
  have hlo : (Fin.ofNat 0x110000 (0xdc00 + (c.val - 0x10000) % 1024)).val =
      0xdc00 + (c.val - 0x10000) % 1024 := by
    rw [Fin.val_ofNat, Nat.mod_eq_of_lt (by omega)]
  rw [units, if_neg h, List.cons_append, List.cons_append, List.nil_append, joinPairs, if_pos]
  · have hval : 0x10000 + 1024 * (0xd800 + (c.val - 0x10000) / 1024 - 0xd800) +
        (0xdc00 + (c.val - 0x10000) % 1024 - 0xdc00) = c.val := by omega
    rw [hhi, hlo, hval, Fin.ofNat_val_eq_self]
  · simp only [isHigh, isLow, hhi, hlo, Bool.and_eq_true, decide_eq_true_eq]
    omega

/-- A character that is no first half stays as it is. -/
theorem joinPairs_cons {c : CodePoint} (h : isHigh c = false) (s : PyStr) :
    joinPairs (c :: s) = c :: joinPairs s := by
  cases s with
  | nil => rfl
  | cons d s => rw [joinPairs, h, Bool.false_and]; rfl

/-- A character before one that is no second half stays as it is. -/
theorem joinPairs_cons_cons {c d : CodePoint} (h : isLow d = false) (s : PyStr) :
    joinPairs (c :: d :: s) = c :: joinPairs (d :: s) := by
  rw [joinPairs, h, Bool.and_false]
  rfl

theorem isHigh_lt {c : CodePoint} (h : isHigh c = true) : c.val < 0x10000 := by
  simp only [isHigh, Bool.and_eq_true, decide_eq_true_eq] at h
  omega

theorem isLow_lt {c : CodePoint} (h : isLow c = true) : c.val < 0x10000 := by
  simp only [isLow, Bool.and_eq_true, decide_eq_true_eq] at h
  omega

/-- **Joining the units of a text is joining the text.** -/
theorem joinPairs_flatMap_units (s : PyStr) : joinPairs (s.flatMap units) = joinPairs s := by
  induction s using joinPairs.induct with
  | case1 => rfl
  | case2 c =>
    by_cases hc : c.val < 0x10000
    · simp [units, hc]
    · simpa [joinPairs] using joinPairs_astral hc []
  | case3 c d s hpair ih =>
    obtain ⟨hhigh, hlow⟩ := Bool.and_eq_true_iff.mp hpair
    simp only [List.flatMap_cons, units, isHigh_lt hhigh, isLow_lt hlow, if_true, List.cons_append,
      List.nil_append]
    rw [joinPairs, if_pos hpair, joinPairs, if_pos hpair, ih]
  | case4 c d s hpair ih =>
    rw [List.flatMap_cons]
    by_cases hc : c.val < 0x10000
    · rw [units, if_pos hc, List.cons_append, List.nil_append]
      cases hhigh : isHigh c with
      | false => rw [joinPairs_cons hhigh, joinPairs_cons hhigh, ih]
      | true =>
        have hlow : isLow d = false := by simpa [hhigh] using hpair
        rw [joinPairs_cons_cons hlow, ← ih, List.flatMap_cons]
        -- the next unit is `d` itself or a first half
        by_cases hd : d.val < 0x10000
        · rw [units, if_pos hd, List.cons_append, joinPairs_cons_cons hlow]
        · have hfirst : isLow (Fin.ofNat 0x110000 (0xd800 + (d.val - 0x10000) / 1024)) = false := by
            have := d.isLt
            simp only [isLow, Fin.val_ofNat, Bool.and_eq_false_iff, decide_eq_false_iff_not]
            omega
          rw [units, if_neg hd, List.cons_append, joinPairs_cons_cons hfirst]
    · have hhigh : isHigh c = false := by
        by_contra hne
        exact hc (isHigh_lt (by simpa using hne))
      rw [joinPairs_astral hc, joinPairs_cons hhigh, ih]

/-- Two adjacent halves somewhere. -/
def hasPair : PyStr → Bool
  | c :: d :: s => (isHigh c && isLow d) || hasPair (d :: s)
  | _ => false

theorem joinPairs_length_le (s : PyStr) : (joinPairs s).length ≤ s.length := by
  induction s using joinPairs.induct with
  | case1 => exact le_rfl
  | case2 c => exact le_rfl
  | case3 c d s hpair ih =>
    rw [joinPairs, if_pos hpair]
    simp only [List.length_cons]
    omega
  | case4 c d s hpair ih =>
    rw [joinPairs, if_neg hpair]
    simp only [List.length_cons] at ih ⊢
    omega

/-- **Joining changes a text exactly when it has a pair.** -/
theorem joinPairs_eq_self_iff (s : PyStr) : joinPairs s = s ↔ hasPair s = false := by
  induction s using joinPairs.induct with
  | case1 => simp [joinPairs, hasPair]
  | case2 c => simp [joinPairs, hasPair]
  | case3 c d s hpair ih =>
    rw [joinPairs, if_pos hpair, hasPair, hpair, Bool.true_or]
    refine ⟨fun h => ?_, fun h => by cases h⟩
    have hlen := congrArg List.length h
    have hle := joinPairs_length_le s
    simp only [List.length_cons] at hlen
    omega
  | case4 c d s hpair ih =>
    have hpair' : (isHigh c && isLow d) = false := by simpa using hpair
    rw [joinPairs, if_neg hpair, hasPair, hpair', Bool.false_or, ← ih]
    simp

/-- A stripped text that is joined is the text again only if neither has an effect. -/
theorem joinPairs_strip_eq_iff (s : PyStr) :
    joinPairs (strip s) = s ↔ strip s = s ∧ hasPair s = false := by
  constructor
  · intro h
    have hlen := congrArg List.length h
    have hjoin := joinPairs_length_le (strip s)
    have hstrip : strip s = s :=
      (strip_sublist s).eq_of_length_le (by omega)
    rw [hstrip] at h
    exact ⟨hstrip, (joinPairs_eq_self_iff s).mp h⟩
  · rintro ⟨hstrip, hpair⟩
    rw [hstrip]
    exact (joinPairs_eq_self_iff s).mpr hpair

/-! ### Reading an object back -/

/-- **A written string is read as itself, pairs joined.** -/
theorem readString_quote (s rest : PyStr) :
    readString (quote s ++ rest) = some (joinPairs s, rest) := by
  rw [quote, List.cons_append, List.append_assoc, readString]
  simp only [List.singleton_append, readBody_flatMap, Option.map_some, joinPairs_flatMap_units]

/-- What reading makes of a value. -/
def Scalar.joined : Scalar → Scalar
  | .str s => .str (joinPairs s)
  | .num token => .num token

/-- A number's token has no delimiter in it. -/
def Scalar.wellFormed : Scalar → Prop
  | .str _ => True
  | .num token => ∀ c ∈ token, isToken c = true

/-- A written value is read back before a delimiter. -/
theorem readScalar_dump {v : Scalar} (h : v.wellFormed) {c : CodePoint} (hc : isToken c = false)
    (hquote : c ≠ 0x22) (rest : PyStr) :
    readScalar (v.dump ++ c :: rest) = some (v.joined, c :: rest) := by
  cases v with
  | str s =>
    have hread := readString_quote s (c :: rest)
    rw [Scalar.dump, quote, List.cons_append] at *
    rw [readScalar, hread]
    rfl
  | num token =>
    have htake : (token ++ c :: rest).takeWhile isToken = token := by
      rw [List.takeWhile_append_of_pos h, List.takeWhile_cons_of_neg (by simp [hc]),
        List.append_nil]
    have hdrop : (token ++ c :: rest).dropWhile isToken = c :: rest := by
      rw [List.dropWhile_append_of_pos h, List.dropWhile_cons_of_neg (by simp [hc])]
    rw [Scalar.dump, readScalar.eq_def]
    split
    · next heq =>
      -- neither the token nor the delimiter starts with a mark
      cases token with
      | nil => cases heq; exact absurd rfl hquote
      | cons t token => cases heq; exact absurd (h _ (.head _)) (by decide)
    · rw [htake, hdrop]
      rfl

/-- A written member is read back before a delimiter. -/
theorem readMember_dumpMember {m : PyStr × Scalar} (h : m.2.wellFormed) {c : CodePoint}
    (hc : isToken c = false) (hquote : c ≠ 0x22) (rest : PyStr) :
    readMember (dumpMember m ++ c :: rest) = some ((joinPairs m.1, m.2.joined), c :: rest) := by
  rw [readMember, dumpMember, List.append_assoc, readString_quote, Option.bind_some,
    List.cons_append]
  simp only [readScalar_dump h hc hquote, Option.map_some]

/-- The members of an object are read back, given fuel for each of them. -/
theorem readMembers_dumpMembers : ∀ {ms : List (PyStr × Scalar)} {n : ℕ}, ms ≠ [] → ms.length ≤ n →
    (∀ m ∈ ms, m.2.wellFormed) →
      readMembers n (dumpMembers ms) = some (ms.map fun m => (joinPairs m.1, m.2.joined)) := by
  intro ms
  induction ms with
  | nil => exact fun h => absurd rfl h
  | cons m ms ih =>
    intro n _ hn hwf
    obtain ⟨n, rfl⟩ : ∃ k, n = k + 1 := ⟨n - 1, by simp at hn; omega⟩
    have hm := hwf m (.head _)
    cases ms with
    | nil =>
      rw [dumpMembers, readMembers, readMember_dumpMember hm (by decide) (by decide)]
      rfl
    | cons m' ms =>
      have hrest := ih (n := n) (by simp) (by simpa using hn) fun x hx => hwf x (.tail _ hx)
      rw [dumpMembers, readMembers, readMember_dumpMember hm (by decide) (by decide),
        Option.bind_some]
      simp only [hrest, Option.map_some, List.map_cons]

theorem length_le_dumpMembers (ms : List (PyStr × Scalar)) :
    ms.length ≤ (dumpMembers ms).length := by
  induction ms with
  | nil => exact Nat.zero_le _
  | cons m ms ih =>
    cases ms with
    | nil => simp [dumpMembers, dumpMember, quote]
    | cons m' ms =>
      simp only [dumpMembers, List.length_append, List.length_cons] at ih ⊢
      omega

/-- **A written object is read back**, adjacent surrogates joined. -/
theorem loads_dumps {ms : List (PyStr × Scalar)} (hne : ms ≠ [])
    (hwf : ∀ m ∈ ms, m.2.wellFormed) :
    loads (dumps ms) = some (ms.map fun m => (joinPairs m.1, m.2.joined)) := by
  rw [dumps, loads, readMembers_dumpMembers hne (length_le_dumpMembers ms) hwf]

end Json
end Python
end SovereignSeed
