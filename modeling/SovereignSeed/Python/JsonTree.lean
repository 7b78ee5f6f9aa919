import SovereignSeed.Python.Value
import SovereignSeed.Python.Json
import Mathlib.Data.List.Lex
import Mathlib.Data.List.Sort

/-!
# JSON values

The whole of `json.dumps` and `json.loads`, for values of any depth.  The writer
takes a style: where white space goes.  The reader gives the members of an object
as they stand; making a `dict` of them, where a later member replaces an earlier
one with its key, is a step of its own.

The depth of the interpreter's stack is no part of this.

## Main definitions

* `Value` — JSON values; `Value.induct` is their induction.
* `Style`, `Value.render`, `Value.dumps` — the writer.
* `readValue`, `parse` — the reader; `Value.dict`, `load` — the `dict`s.
* `Value.sortKeys` — what `sort_keys` does to a value.
* `field`, `isStr` — `d.get(k)`, and a comparison with a string.
-/

namespace SovereignSeed
namespace Python
namespace Json

/-! ### Values -/

/-- A JSON value; an object by its members, in order. -/
inductive Value
  | null
  | bool (b : Bool)
  | int (n : ℤ)
  | float (x : PyFloat)
  | str (s : PyStr)
  | arr (vs : List Value)
  | obj (ms : List (PyStr × Value))

/-- The members of an object. -/
abbrev Members := List (PyStr × Value)

/-- Induction on a value: over the items of an array, the values of an object. -/
@[elab_as_elim, induction_eliminator]
theorem Value.induct {P : Value → Prop} (null : P .null) (bool : ∀ b, P (.bool b))
    (int : ∀ n, P (.int n)) (float : ∀ x, P (.float x)) (str : ∀ s, P (.str s))
    (arr : ∀ vs, (∀ v ∈ vs, P v) → P (.arr vs))
    (obj : ∀ ms : Members, (∀ m ∈ ms, P m.2) → P (.obj ms)) (v : Value) : P v :=
  Value.rec (motive_1 := P) (motive_2 := fun vs => ∀ v ∈ vs, P v)
    (motive_3 := fun ms => ∀ m ∈ ms, P m.2) (motive_4 := fun m => P m.2)
    null bool int float str arr obj (List.forall_mem_nil _)
    (fun _ _ hv hvs => List.forall_mem_cons.mpr ⟨hv, hvs⟩) (List.forall_mem_nil _)
    (fun _ _ hm hms => List.forall_mem_cons.mpr ⟨hm, hms⟩) (fun _ _ hv => hv) v

mutual

/-- A value with its strings and its objects rebuilt from the inside out. -/
def Value.rebuild (onStr : PyStr → PyStr) (onObj : Members → Members) : Value → Value
  | .str s => .str (onStr s)
  | .arr vs => .arr (rebuildItems onStr onObj vs)
  | .obj ms => .obj (onObj (rebuildMembers onStr onObj ms))
  | v => v

@[inherit_doc Value.rebuild]
def rebuildItems (onStr : PyStr → PyStr) (onObj : Members → Members) : List Value → List Value
  | [] => []
  | v :: vs => v.rebuild onStr onObj :: rebuildItems onStr onObj vs

@[inherit_doc Value.rebuild]
def rebuildMembers (onStr : PyStr → PyStr) (onObj : Members → Members) : Members → Members
  | [] => []
  | (k, v) :: ms => (onStr k, v.rebuild onStr onObj) :: rebuildMembers onStr onObj ms

end

section Rebuild

variable {f : PyStr → PyStr} {g : Members → Members}

@[simp] theorem rebuild_arr (vs : List Value) :
    (Value.arr vs).rebuild f g = .arr (vs.map (Value.rebuild f g)) := by
  rw [Value.rebuild]
  congr 1
  induction vs with
  | nil => rfl
  | cons v vs ih => rw [rebuildItems, ih, List.map_cons]

@[simp] theorem rebuild_obj (ms : Members) :
    (Value.obj ms).rebuild f g = .obj (g (ms.map fun m => (f m.1, m.2.rebuild f g))) := by
  rw [Value.rebuild]
  congr 2
  induction ms with
  | nil => rfl
  | cons m ms ih => rw [rebuildMembers, ih, List.map_cons]

end Rebuild

/-! ### Writing -/

/-- The white space of JSON. -/
def isWs (c : CodePoint) : Bool := c == 0x20 || c == 0x09 || c == 0x0a || c == 0x0d

/-- Where a writer puts white space, by the depth of the brackets around it. -/
structure Style where
  /-- Behind an opening bracket. -/
  opening : ℕ → PyStr
  /-- Behind a comma. -/
  between : ℕ → PyStr
  /-- Before a closing bracket. -/
  closing : ℕ → PyStr
  /-- Behind a colon. -/
  afterColon : PyStr
  opening_isWs : ∀ d, ∀ c ∈ opening d, isWs c = true
  between_isWs : ∀ d, ∀ c ∈ between d, isWs c = true
  closing_isWs : ∀ d, ∀ c ∈ closing d, isWs c = true
  afterColon_isWs : ∀ c ∈ afterColon, isWs c = true

/-- `separators=(",", ":")`. -/
def Style.compact : Style where
  opening _ := []
  between _ := []
  closing _ := []
  afterColon := []
  opening_isWs _ := nofun
  between_isWs _ := nofun
  closing_isWs _ := nofun
  afterColon_isWs := nofun

theorem isWs_of_mem_space : ∀ c ∈ ([0x20] : PyStr), isWs c = true := by
  intro c hc
  rw [List.mem_singleton.mp hc]
  decide

/-- The default: `separators=(", ", ": ")`. -/
def Style.spaced : Style where
  opening _ := []
  between _ := [0x20]
  closing _ := []
  afterColon := [0x20]
  opening_isWs _ := nofun
  between_isWs _ := isWs_of_mem_space
  closing_isWs _ := nofun
  afterColon_isWs := isWs_of_mem_space

/-- A new line, and an indent of two for each bracket around it. -/
def newline (d : ℕ) : PyStr := 0x0a :: List.replicate (2 * d) 0x20

theorem isWs_of_mem_newline (d : ℕ) : ∀ c ∈ newline d, isWs c = true := by
  intro c hc
  rcases List.mem_cons.mp hc with rfl | hc
  · decide
  · rw [List.eq_of_mem_replicate hc]
    decide

/-- `indent=2`. -/
def Style.indented : Style where
  opening d := newline (d + 1)
  between d := newline (d + 1)
  closing d := newline d
  afterColon := [0x20]
  opening_isWs d := isWs_of_mem_newline (d + 1)
  between_isWs d := isWs_of_mem_newline (d + 1)
  closing_isWs d := isWs_of_mem_newline d
  afterColon_isWs := isWs_of_mem_space

/-- The texts behind the first one, and the end of the brackets. -/
def tailText (L : Style) (d : ℕ) (cl : CodePoint) : List PyStr → PyStr
  | [] => L.closing d ++ [cl]
  | t :: ts => 0x2c :: (L.between d ++ (t ++ tailText L d cl ts))

/-- Texts in brackets; there is no white space in empty ones. -/
def bracket (L : Style) (d : ℕ) (op cl : CodePoint) : List PyStr → PyStr
  | [] => [op, cl]
  | t :: ts => op :: (L.opening d ++ (t ++ tailText L d cl ts))

/-- `"key": value`, given the text of the value. -/
def memberText (L : Style) (k t : PyStr) : PyStr := quote k ++ 0x3a :: (L.afterColon ++ t)

mutual

/-- The text of a value at depth `d`. -/
def Value.render (L : Style) : Value → ℕ → PyStr
  | .null, _ => text "null"
  | .bool b, _ => if b then text "true" else text "false"
  | .int n, _ => decimalInt n
  | .float x, _ => jsonFloat x
  | .str s, _ => quote s
  | .arr vs, d => bracket L d 0x5b 0x5d (itemTexts L vs (d + 1))
  | .obj ms, d => bracket L d 0x7b 0x7d (memberTexts L ms (d + 1))

@[inherit_doc Value.render]
def itemTexts (L : Style) : List Value → ℕ → List PyStr
  | [], _ => []
  | v :: vs, d => v.render L d :: itemTexts L vs d

@[inherit_doc Value.render]
def memberTexts (L : Style) : Members → ℕ → List PyStr
  | [], _ => []
  | (k, v) :: ms, d => memberText L k (v.render L d) :: memberTexts L ms d

end

theorem itemTexts_eq (L : Style) (vs : List Value) (d : ℕ) :
    itemTexts L vs d = vs.map fun v => v.render L d := by
  induction vs with
  | nil => rfl
  | cons v vs ih => rw [itemTexts, ih, List.map_cons]

theorem memberTexts_eq (L : Style) (ms : Members) (d : ℕ) :
    memberTexts L ms d = ms.map fun m => memberText L m.1 (m.2.render L d) := by
  induction ms with
  | nil => rfl
  | cons m ms ih => rw [memberTexts, ih, List.map_cons]

mutual

/-- Every integer in the value has a text. -/
def Value.printable : Value → Bool
  | .int n => n.natAbs < 10 ^ maxStrDigits
  | .arr vs => printableItems vs
  | .obj ms => printableMembers ms
  | _ => true

@[inherit_doc Value.printable]
def printableItems : List Value → Bool
  | [] => true
  | v :: vs => v.printable && printableItems vs

@[inherit_doc Value.printable]
def printableMembers : Members → Bool
  | [] => true
  | (_, v) :: ms => v.printable && printableMembers ms

end

@[simp] theorem printable_arr {vs : List Value} :
    (Value.arr vs).printable = true ↔ ∀ v ∈ vs, v.printable = true := by
  rw [Value.printable]
  induction vs with
  | nil => simp [printableItems]
  | cons v vs ih => simp [printableItems, ih]

@[simp] theorem printable_obj {ms : Members} :
    (Value.obj ms).printable = true ↔ ∀ m ∈ ms, m.2.printable = true := by
  rw [Value.printable]
  induction ms with
  | nil => simp [printableMembers]
  | cons m ms ih => simp [printableMembers, ih]

/-- `json.dumps(v)` in a style, or `none` where it raises `ValueError`. -/
def Value.dumps (L : Style) (v : Value) : Option PyStr :=
  if v.printable then some (v.render L 0) else none

/-! ### Reading -/

/-- The text behind the white space at its front. -/
def skipWs (s : PyStr) : PyStr := s.dropWhile isWs

/-- The characters of numbers. -/
def isNumChar (c : CodePoint) : Bool :=
  isDigit c || c == 0x2d || c == 0x2b || c == 0x2e || isExponentMark c

/-- An exponent, or nothing. -/
def isExponent : PyStr → Bool
  | [] => true
  | c :: s =>
    let ds := if s.head? = some 0x2d ∨ s.head? = some 0x2b then s.tail else s
    isExponentMark c && (decide (ds ≠ []) && ds.all isDigit)

/-- A fraction, an exponent, both, or nothing. -/
def isFraction (s : PyStr) : Bool :=
  match s with
  | 0x2e :: t => decide (t.takeWhile isDigit ≠ []) && isExponent (t.dropWhile isDigit)
  | _ => isExponent s

/-- The number of a numeral; an integer of too many digits is a `ValueError`. -/
def readNumeral (token : PyStr) : Option Value :=
  let neg : Bool := token.head? = some 0x2d
  let unsigned := if neg then token.tail else token
  let ip := unsigned.takeWhile isDigit
  let tail := unsigned.dropWhile isDigit
  if ip = [] ∨ (ip.head? = some (digit 0) ∧ 1 < ip.length) then none
  else if tail = [] then
    if 10 ^ maxStrDigits ≤ ofDigits ip then none
    else some (.int (if neg then -(ofDigits ip : ℤ) else ofDigits ip))
  else if isFraction tail then (floatOfText token).map .float
  else none

/-- The values with a name. -/
def constants : List (PyStr × Value) :=
  [(text "null", .null), (text "true", .bool true), (text "false", .bool false),
   (text "NaN", .float .nan), (text "Infinity", .float (.inf false)),
   (text "-Infinity", .float (.inf true))]

/-- A value with a name, or a number.  A number ends before a character that no
number has: were its match to end earlier, a character would be left behind that
no value is followed by. -/
def readAtom (s : PyStr) : Option (Value × PyStr) :=
  match constants.find? fun w => w.1.isPrefixOf s with
  | some w => some (w.2, s.drop w.1.length)
  | none => (readNumeral (s.takeWhile isNumChar)).map fun v => (v, s.dropWhile isNumChar)

section Sequences

variable {α : Type}

/-- At most `n` items between commas, up to the closing bracket. -/
def readSeq (read : PyStr → Option (α × PyStr)) (cl : CodePoint) :
    ℕ → PyStr → Option (List α × PyStr)
  | 0, _ => none
  | n + 1, s =>
    (read s).bind fun r =>
      match skipWs r.2 with
      | [] => none
      | c :: rest =>
        if c = cl then some ([r.1], rest)
        else if c = 0x2c then (readSeq read cl n (skipWs rest)).map fun q => (r.1 :: q.1, q.2)
        else none

/-- What follows an opening bracket. -/
def readBracket (read : PyStr → Option (α × PyStr)) (cl : CodePoint) (s : PyStr) :
    Option (List α × PyStr) :=
  match skipWs s with
  | [] => none
  | c :: rest => if c = cl then some ([], rest) else readSeq read cl (c :: rest).length (c :: rest)

/-- `"key": value`. -/
def readEntry (read : PyStr → Option (α × PyStr)) (s : PyStr) : Option ((PyStr × α) × PyStr) :=
  (readString s).bind fun k =>
    match skipWs k.2 with
    | [] => none
    | c :: rest =>
      if c = 0x3a then (read (skipWs rest)).map fun r => ((k.1, r.1), r.2) else none

end Sequences

/-- A value with less than `n` brackets around any part of it. -/
def readValue : ℕ → PyStr → Option (Value × PyStr)
  | 0, _ => none
  | _ + 1, [] => none
  | n + 1, c :: s =>
    if c = 0x22 then (readString (c :: s)).map fun r => (.str r.1, r.2)
    else if c = 0x7b then
      (readBracket (readEntry (readValue n)) 0x7d s).map fun r => (.obj r.1, r.2)
    else if c = 0x5b then (readBracket (readValue n) 0x5d s).map fun r => (.arr r.1, r.2)
    else readAtom (c :: s)

/-- The value a text is, with the members of objects as they stand. -/
def parse (s : PyStr) : Option Value :=
  match readValue (s.length + 1) (skipWs s) with
  | some (v, rest) => if skipWs rest = [] then some v else none
  | none => none

/-! ### Objects -/

section Dicts

variable {α : Type}

/-- `d[k] = v`. -/
def setItem (d : List (PyStr × α)) (m : PyStr × α) : List (PyStr × α) :=
  if d.any (·.1 = m.1) then d.map fun e => if e.1 = m.1 then m else e else d ++ [m]

/-- The `dict` of a row of members: a later one replaces an earlier one with its key. -/
def dictOf (ms : List (PyStr × α)) : List (PyStr × α) := ms.foldl setItem []

/-- The members in the order of their keys. -/
def sortMembers (ms : List (PyStr × α)) : List (PyStr × α) :=
  ms.insertionSort fun m m' => m.1 ≤ m'.1

end Dicts

/-- The value with adjacent halves of surrogate pairs joined. -/
def Value.joined (v : Value) : Value := v.rebuild joinPairs id

/-- The value with `dict`s for its objects. -/
def Value.dict (v : Value) : Value := v.rebuild id dictOf

/-- The value with the members of its objects in the order of their keys. -/
def Value.sortKeys (v : Value) : Value := v.rebuild id sortMembers

/-- `json.loads(s)`, or `none` where it raises. -/
def load (s : PyStr) : Option Value := (parse s).map Value.dict

/-! ### Reading a `dict` -/

/-- `d.get(k)`: `None` for a missing key. -/
def field (d : Members) (k : String) : Value := (d.lookup (text k)).getD .null

/-- `v == s` for a string `s`. -/
def isStr (v : Value) (s : PyStr) : Bool :=
  match v with
  | .str t => t = s
  | _ => false

theorem isStr_eq_true_iff {v : Value} {s : PyStr} : isStr v s = true ↔ v = .str s := by
  cases v <;> simp [isStr]

end Json
end Python
end SovereignSeed
