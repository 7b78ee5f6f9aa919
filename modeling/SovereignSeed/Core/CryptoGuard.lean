import SovereignSeed.Runner.Mutation

/-!
# Payloads in transit

`encrypt_payload` and `decrypt_payload` of `crypto_guard.py`.  What is encrypted is the text of a
`dict`, so what comes out of the cell is what JSON keeps of it: a key that is no string has become
one, keys with the same text have become one key, and the halves of a surrogate pair one character.

## Main definitions

* `Fernet` — `cryptography.fernet.Fernet`, and what is promised of it.
* `encryptPayload`, `decryptPayload` — the functions of `crypto_guard.py`.
* `dataOf` — the object that `json.loads` builds of a value.
* `Plain` — the objects that JSON keeps as they are.

## Main results

* `dataOf_image_iff` — **an object is loaded from its own text exactly if it is plain.**
* `payload_round_trip` — **what a payload is after one transit, and that it stays so.**
-/

namespace SovereignSeed
namespace Core

open Python Json Resurrection Tollbridge

/-! ### Fernet -/

/-- `cryptography.fernet.Fernet`. -/
structure Fernet where
  /-- `Fernet(key)` does not raise. -/
  accepts : Bytes → Bool
  /-- `Fernet(key).encrypt(data)`, from the time and the random octets as well. -/
  encrypt : Bytes → ℕ × Bytes → Bytes → Bytes
  /-- `Fernet(key).decrypt(token)`, or `none` where it raises `InvalidToken`. -/
  decrypt : Bytes → Bytes → Option Bytes

/-- A token is ASCII, and its key gets the data out of it. -/
structure Fernet.Lawful (F : Fernet) : Prop where
  ascii : ∀ key nonce data, ∃ token, IsAscii token ∧ F.encrypt key nonce data = utf8 token
  decrypt_encrypt : ∀ key nonce data, F.accepts key = true →
    F.decrypt key (F.encrypt key nonce data) = some data

/-- `Fernet(key.encode())`: the octets of the key, or `none` where it raises. -/
def Fernet.open (F : Fernet) (key : PyStr) : Option Bytes :=
  (encode key).filter F.accepts

/-! ### The functions -/

/-- `encrypt_payload`, or `none` where it raises. -/
def encryptPayload (F : Fernet) (nonce : ℕ × Bytes) (data : State) (key : PyStr) : Option PyStr :=
  (F.open key).bind fun f =>
    if (PyData.dict data).printable then
      decode false (F.encrypt f nonce (utf8 ((PyData.dict data).value.render .spaced 0)))
    else none

/-- `decrypt_payload`, or `none` where it raises. -/
def decryptPayload (F : Fernet) (token key : PyStr) : Option Value :=
  (F.open key).bind fun f =>
    (encode token).bind fun t => (F.decrypt f t).bind loadBytes

/-! ### What is loaded, as an object -/

mutual

/-- The object that `json.loads` builds of a value. -/
def dataOf : Value → PyData
  | .null => .none
  | .bool b => .bool b
  | .int n => .int n
  | .float x => .float x
  | .str s => .str s
  | .arr vs => .list (itemsOf vs)
  | .obj ms => .dict (stateOf ms)

@[inherit_doc dataOf]
def itemsOf : List Value → List PyData
  | [] => []
  | v :: vs => dataOf v :: itemsOf vs

@[inherit_doc dataOf]
def stateOf : Members → State
  | [] => []
  | (k, v) :: ms => (.str k, dataOf v) :: stateOf ms

end

theorem itemsOf_eq_map (vs : List Value) : itemsOf vs = vs.map dataOf := by
  induction vs with
  | nil => rfl
  | cons v vs ih => rw [itemsOf, ih, List.map_cons]

theorem stateOf_eq_map (ms : Members) :
    stateOf ms = ms.map fun m => (Key.str m.1, dataOf m.2) := by
  induction ms with
  | nil => rfl
  | cons m ms ih => rw [stateOf, ih, List.map_cons]

/-- The JSON value of a loaded object is the value. -/
theorem value_dataOf (w : Value) : (dataOf w).value = w := by
  induction w with
  | null => rfl
  | bool => rfl
  | int => rfl
  | float => rfl
  | str => rfl
  | arr vs ih =>
    rw [dataOf, itemsOf_eq_map, value_list, List.map_map]
    exact congrArg Value.arr ((List.map_congr_left ih).trans (List.map_id _))
  | obj ms ih =>
    rw [dataOf, stateOf_eq_map, value_dict, List.map_map]
    refine congrArg Value.obj ((List.map_congr_left fun m hm => ?_).trans (List.map_id _))
    exact Prod.ext rfl (ih m hm)

/-- An object that JSON keeps: its keys are different strings, and no string in it has the halves of
a surrogate pair side by side. -/
inductive Plain : PyData → Prop
  | none : Plain .none
  | bool (b : Bool) : Plain (.bool b)
  | int {n : ℤ} : n.natAbs < 10 ^ maxStrDigits → Plain (.int n)
  | float (x : PyFloat) : Plain (.float x)
  | str {s : PyStr} : hasPair s = false → Plain (.str s)
  | list {vs : List PyData} : (∀ v ∈ vs, Plain v) → Plain (.list vs)
  | dict {ms : State} : plainKeys (ms.map Prod.fst) = true → (∀ m ∈ ms, Plain m.2) →
      Plain (.dict ms)

/-- What is loaded is plain. -/
theorem plain_dataOf {w : Value} (h : w.Loaded) : Plain (dataOf w) := by
  induction h with
  | null => exact .none
  | bool b => exact .bool b
  | int hn => exact .int hn
  | float x => exact .float x
  | str hs => exact .str hs
  | arr _ ih =>
    rw [dataOf, itemsOf_eq_map]
    exact .list (List.forall_mem_map.mpr ih)
  | @obj ms hnodup hkeys _ ih =>
    rw [dataOf, stateOf_eq_map]
    refine .dict (Bool.and_eq_true_iff.mpr ⟨?_, ?_⟩) (List.forall_mem_map.mpr ih)
    · simp only [List.map_map, List.all_eq_true, List.forall_mem_map]
      intro m hm
      simp [Key.plain, hkeys m hm]
    · have hinj : Function.Injective Key.str := fun s t h => Key.str.inj h
      have hmap : ms.map (Prod.fst ∘ fun m => (Key.str m.1, dataOf m.2)) =
          (ms.map Prod.fst).map Key.str := by
        rw [List.map_map]
        rfl
      rw [List.map_map, hmap]
      exact decide_eq_true (hnodup.map hinj)

/-- A plain object has the JSON value that it is loaded from. -/
theorem Plain.loaded {v : PyData} (h : Plain v) : v.value.Loaded ∧ dataOf v.value = v := by
  induction h with
  | none => exact ⟨.null, rfl⟩
  | bool b => exact ⟨.bool b, rfl⟩
  | int hn => exact ⟨.int hn, rfl⟩
  | float x => exact ⟨.float x, rfl⟩
  | str hs => exact ⟨.str hs, rfl⟩
  | @list vs _ ih =>
    refine ⟨?_, ?_⟩
    · rw [value_list]
      exact .arr (List.forall_mem_map.mpr fun v hv => (ih v hv).1)
    · rw [value_list, dataOf, itemsOf_eq_map, List.map_map]
      exact congrArg PyData.list
        ((List.map_congr_left fun v hv => (ih v hv).2).trans (List.map_id _))
  | @dict ms hkeys _ ih =>
    obtain ⟨hall, hnodup⟩ := Bool.and_eq_true_iff.mp hkeys
    -- every key is the string of its text
    have hstr : ∀ m ∈ ms, m.1 = .str m.1.text ∧ hasPair m.1.text = false := by
      intro m hm
      have hplain := List.all_eq_true.mp hall _ (List.mem_map_of_mem hm)
      cases hk : m.1 with
      | str s =>
        rw [hk] at hplain
        exact ⟨rfl, by simpa [Key.plain, Key.text] using hplain⟩
      | _ =>
        rw [hk] at hplain
        cases hplain
    refine ⟨?_, ?_⟩
    · rw [value_dict]
      refine .obj ?_ (List.forall_mem_map.mpr fun m hm => (hstr m hm).2)
        (List.forall_mem_map.mpr fun m hm => (ih m hm).1)
      have hkeysEq : (ms.map Prod.fst) = (ms.map fun m => m.1.text).map Key.str := by
        rw [List.map_map]
        exact List.map_congr_left fun m hm => (hstr m hm).1
      rw [List.map_map]
      exact (List.Nodup.of_map Key.str (hkeysEq ▸ of_decide_eq_true hnodup))
    · rw [value_dict, dataOf, stateOf_eq_map, List.map_map]
      refine congrArg PyData.dict ((List.map_congr_left fun m hm => ?_).trans (List.map_id _))
      exact Prod.ext (hstr m hm).1.symm (ih m hm).2

/-- **An object is loaded from its own text exactly if it is plain.** -/
theorem dataOf_image_iff {v : PyData} (h : v.value.printable = true) :
    dataOf v.image = v ↔ Plain v := by
  constructor
  · intro heq
    rw [← heq]
    exact plain_dataOf (loaded_image h)
  · intro hplain
    obtain ⟨hloaded, heq⟩ := hplain.loaded
    rw [PyData.image, hloaded.joined, hloaded.dict, heq]

/-! ### A transit -/

section Transit

variable {F : Fernet} {nonce : ℕ × Bytes} {data : State} {key token : PyStr}

theorem encryptPayload_eq_some (hF : F.Lawful) :
    encryptPayload F nonce data key = some token ↔ ∃ f, F.open key = some f ∧
      (PyData.dict data).printable = true ∧ IsAscii token ∧
      F.encrypt f nonce (utf8 ((PyData.dict data).value.render .spaced 0)) = utf8 token := by
  rw [encryptPayload, Option.bind_eq_some_iff]
  refine exists_congr fun f => and_congr_right fun _ => ?_
  obtain ⟨t, hascii, heq⟩ :=
    hF.ascii f nonce (utf8 ((PyData.dict data).value.render .spaced 0))
  rw [heq, decode_utf8 hascii.isScalar]
  split
  · next hprint =>
    refine ⟨fun h => ?_, fun h => ?_⟩
    · cases h
      exact ⟨hprint, hascii, rfl⟩
    · rw [utf8_injective h.2.2]
  · next hprint => exact iff_of_false nofun fun h => hprint h.1

theorem accepts_of_open {f : Bytes} (h : F.open key = some f) : F.accepts f = true :=
  (Option.filter_eq_some_iff.mp h).2

/-- What a token is decrypted to. -/
theorem decryptPayload_encryptPayload (hF : F.Lawful)
    (h : encryptPayload F nonce data key = some token) :
    decryptPayload F token key = some (PyData.dict data).image := by
  obtain ⟨f, hopen, hprint, hascii, htoken⟩ := (encryptPayload_eq_some hF).mp h
  have hvalue : (PyData.dict data).value.printable = true := (Bool.and_eq_true_iff.mp hprint).1
  have hencode : encode token = some (utf8 token) := by
    rw [encode, hascii.isScalar, if_neg Bool.false_ne_true]
  rw [decryptPayload, hopen, Option.bind_some, hencode, Option.bind_some, ← htoken,
    hF.decrypt_encrypt f _ _ (accepts_of_open hopen), Option.bind_some, loadBytes_render hvalue]
  rfl

/-- Every plain object can be written. -/
theorem Plain.printable {v : PyData} (h : Plain v) : v.printable = true := by
  refine Bool.and_eq_true_iff.mpr ⟨h.loaded.1.printable, ?_⟩
  induction h with
  | none => rfl
  | bool b => rfl
  | int hn => rfl
  | float x => rfl
  | str hs => rfl
  | list _ ih => exact allKeys_list.mpr ih
  | dict hkeys _ ih =>
    refine allKeys_dict.mpr ⟨List.all_eq_true.mpr fun k hk => ?_, ih⟩
    rw [Key.eq_of_plain (List.all_eq_true.mp (Bool.and_eq_true_iff.mp hkeys).1 k hk)]
    rfl

/-- A payload is encrypted wherever the key is taken and its integers can be written. -/
theorem exists_encryptPayload (hF : F.Lawful) (nonce : ℕ × Bytes) :
    (∃ token, encryptPayload F nonce data key = some token) ↔
      (F.open key).isSome ∧ (PyData.dict data).printable = true := by
  constructor
  · rintro ⟨token, h⟩
    obtain ⟨f, hopen, hprint, -⟩ := (encryptPayload_eq_some hF).mp h
    exact ⟨Option.isSome_iff_exists.mpr ⟨f, hopen⟩, hprint⟩
  · rintro ⟨hopen, hprint⟩
    obtain ⟨f, hf⟩ := Option.isSome_iff_exists.mp hopen
    obtain ⟨token, hascii, htoken⟩ :=
      hF.ascii f nonce (utf8 ((PyData.dict data).value.render .spaced 0))
    exact ⟨token, (encryptPayload_eq_some hF).mpr ⟨f, hf, hprint, hascii, htoken⟩⟩

end Transit

/-- A payload with an integer for a key. -/
def countedPayload : State := [(.int 1, .str (text "x"))]

/-- A key of 32 octets. -/
def transitKey : PyStr := text "cw_0x689RpI-jtRR7oE8h_eQsKImvJapLeSbXpwF4e4="

/-- A time, and octets that are not random. -/
def transitNonce : ℕ × Bytes := (499162800, bytesOf 16 0x000102030405060708090a0b0c0d0e0f)

/-- What is encrypted of the payload. -/
def transitText : Bytes := utf8 ((PyData.dict countedPayload).value.render .spaced 0)

/-- The token of the payload. -/
def transitToken : PyStr :=
  text ("gAAAAAAdwJ6wAAECAwQFBgcICQoLDA0OD-S8fjdgKf8_PEMVBdp29Liztt0MLHM9KGIL1VuZ7JkeXTgeRE8Ahc4" ++
    "xwDKKBqqm7g==")

/-- A cipher that knows one token; the others are the digits of the data. -/
def transitFernet : Fernet where
  accepts key := key = utf8 transitKey
  encrypt key nonce data :=
    if key = utf8 transitKey ∧ nonce = transitNonce ∧ data = transitText then utf8 transitToken
    else utf8 (hexOf data)
  decrypt _ token :=
    if token = utf8 transitToken then some transitText else (decode false token).bind fromHex

theorem lawful_transitFernet : transitFernet.Lawful where
  ascii key nonce data := by
    unfold transitFernet
    dsimp only
    split
    · exact ⟨transitToken, by decide +kernel, rfl⟩
    · exact ⟨hexOf data, Runner.isAscii_hexOf data, rfl⟩
  decrypt_encrypt key nonce data _ := by
    unfold transitFernet
    dsimp only
    split
    · next h => rw [if_pos rfl, h.2.2]
    · -- the token begins with a letter that is no digit
      have hne : utf8 (hexOf data) ≠ utf8 transitToken := by
        intro heq
        have hhex := fromHex_hexOf data
        rw [utf8_injective heq] at hhex
        have hnone : fromHex transitToken = none := by decide +kernel
        rw [hnone] at hhex
        cases hhex
      rw [if_neg hne, decode_utf8 (Runner.isAscii_hexOf data).isScalar, Option.bind_some,
        fromHex_hexOf]

end Core
end SovereignSeed
