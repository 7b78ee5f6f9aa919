import SovereignSeed.Python.JsonLoaded
import SovereignSeed.Python.Utf8

/-!
# JSON in octets

With `ensure_ascii` the writer gives ASCII, which is its own UTF-8 form: what was
written to a file or a socket is read back by decoding it first.

## Main definitions

* `loadBytes` — `json.loads` of octets, read as UTF-8.

## Main results

* `char_of_mem_render`, `render_ascii`, `dumps_ascii` — what the writers give is ASCII.
* `dumps_eq_render` — the writer of flat objects is the general one.
* `Value.Loaded.loadBytes_render` — **a loaded value is read back from its octets.**
-/

namespace SovereignSeed
namespace Python
namespace Json

/-! ### The characters of a text -/

/-- The printable characters of ASCII. -/
def isPrint (c : CodePoint) : Bool := 0x20 ≤ c.val && c.val ≤ 0x7e

theorem isPrint_hexDigit : ∀ d, d < 16 → isPrint (hexDigit d) = true := by decide

theorem isPrint_of_isDigit {c : CodePoint} (h : isDigit c = true) : isPrint c = true := by
  simp only [isDigit, isPrint, Bool.and_eq_true, decide_eq_true_eq] at h ⊢
  omega

theorem ascii_of_isPrint {c : CodePoint} (h : isPrint c = true) : c.val < 0x80 := by
  simp only [isPrint, Bool.and_eq_true, decide_eq_true_eq] at h
  omega

/-- An escaped character is written in printable characters. -/
theorem isPrint_of_mem_escapeChar (c : CodePoint) : ∀ d ∈ escapeChar c, isPrint d = true := by
  have hshort : ∀ p ∈ shortEscapes, isPrint p.2 = true := by
    have hall : (shortEscapes.all fun p => isPrint p.2) = true := by decide
    exact fun p hp => List.all_eq_true.mp hall p hp
  have hunit : ∀ u, u < 0x10000 → ∀ d ∈ unicodeEscape u, isPrint d = true := by
    intro u hu d hd
    simp only [unicodeEscape, List.mem_cons, List.not_mem_nil, or_false] at hd
    rcases hd with rfl | rfl | rfl | rfl | rfl | rfl
    · decide
    · decide
    all_goals exact isPrint_hexDigit _ (by omega)
  have hc := c.isLt
  intro d hd
  unfold escapeChar at hd
  split at hd
  · next e hl =>
    simp only [List.mem_cons, List.not_mem_nil, or_false] at hd
    rcases hd with rfl | rfl
    · decide
    · exact hshort _ (mem_shortEscapes hl)
  · split at hd
    · next hprint =>
      rw [List.mem_singleton.mp hd]
      simpa [isPrint] using hprint
    · split at hd
      · exact hunit _ (by omega) d hd
      · rcases List.mem_append.mp hd with hd | hd
        · exact hunit _ (by omega) d hd
        · exact hunit _ (by omega) d hd

theorem isPrint_of_mem_quote (s : PyStr) : ∀ d ∈ quote s, isPrint d = true := by
  intro d hd
  simp only [quote, List.mem_cons, List.mem_append, List.mem_flatMap, List.not_mem_nil,
    or_false] at hd
  rcases hd with rfl | ⟨c, -, hc⟩ | rfl
  · decide
  · exact isPrint_of_mem_escapeChar c d hc
  · decide

theorem isPrint_of_mem_jsonFloat (x : PyFloat) : ∀ c ∈ jsonFloat x, isPrint c = true := by
  have hof : ∀ s : PyStr, s.all isPrint = true → ∀ c ∈ s, isPrint c = true :=
    fun s hs => List.all_eq_true.mp hs
  have hrepr : ∀ y : PyFloat, ∀ c ∈ y.repr, isPrint c = true := fun y c hc =>
    hof floatChars (by decide) c (mem_floatChars_of_mem_repr c hc)
  cases x with
  | nan => exact hof _ (by decide)
  | inf neg => cases neg <;> exact hof _ (by decide)
  | finite neg a => exact hrepr (.finite neg a)

theorem isPrint_of_mem_decimalInt (n : ℤ) : ∀ c ∈ decimalInt n, isPrint c = true := by
  have hdecimal : ∀ m, ∀ c ∈ decimal m, isPrint c = true := fun m c hc =>
    isPrint_of_isDigit (isDigit_of_mem_decimal hc)
  have hminus : (text "-").all isPrint = true := by decide
  unfold decimalInt
  split
  · exact List.forall_mem_append.mpr ⟨List.all_eq_true.mp hminus, hdecimal _⟩
  · exact hdecimal _

section Style

variable {L : Style}

/-- The characters a style uses: the printable ones, and its white space. -/
def Style.Char (L : Style) (c : CodePoint) : Prop :=
  isPrint c = true ∨ (∃ d, c ∈ L.opening d ∨ c ∈ L.between d ∨ c ∈ L.closing d) ∨ c ∈ L.afterColon

theorem char_of_mem_tailText {d : ℕ} {cl : CodePoint} (hcl : isPrint cl = true) {ts : List PyStr}
    (h : ∀ t ∈ ts, ∀ c ∈ t, L.Char c) : ∀ c ∈ tailText L d cl ts, L.Char c := by
  induction ts with
  | nil =>
    refine List.forall_mem_append.mpr ⟨fun c hc => ?_, List.forall_mem_singleton.mpr (.inl hcl)⟩
    exact .inr (.inl ⟨d, .inr (.inr hc)⟩)
  | cons t ts ih =>
    have hrest := ih fun u hu => h u (.tail _ hu)
    refine List.forall_mem_cons.mpr ⟨.inl (by decide), List.forall_mem_append.mpr ⟨fun c hc => ?_,
      List.forall_mem_append.mpr ⟨h t (.head _), hrest⟩⟩⟩
    exact .inr (.inl ⟨d, .inr (.inl hc)⟩)

theorem char_of_mem_bracket {d : ℕ} {op cl : CodePoint} (hop : isPrint op = true)
    (hcl : isPrint cl = true) {ts : List PyStr} (h : ∀ t ∈ ts, ∀ c ∈ t, L.Char c) :
    ∀ c ∈ bracket L d op cl ts, L.Char c := by
  cases ts with
  | nil =>
    exact List.forall_mem_cons.mpr ⟨.inl hop, List.forall_mem_singleton.mpr (.inl hcl)⟩
  | cons t ts =>
    have hrest := char_of_mem_tailText (L := L) (d := d) hcl fun u hu => h u (.tail _ hu)
    refine List.forall_mem_cons.mpr ⟨.inl hop, List.forall_mem_append.mpr ⟨fun c hc => ?_,
      List.forall_mem_append.mpr ⟨h t (.head _), hrest⟩⟩⟩
    exact .inr (.inl ⟨d, .inl hc⟩)

theorem char_of_mem_memberText {k t : PyStr} (h : ∀ c ∈ t, L.Char c) :
    ∀ c ∈ memberText L k t, L.Char c := by
  refine List.forall_mem_append.mpr ⟨fun c hc => .inl (isPrint_of_mem_quote k c hc),
    List.forall_mem_cons.mpr ⟨.inl (by decide), List.forall_mem_append.mpr ⟨fun c hc => ?_, h⟩⟩⟩
  exact .inr (.inr hc)

/-- **A text has the characters of its style only.** -/
theorem char_of_mem_render (v : Value) : ∀ d, ∀ c ∈ v.render L d, L.Char c := by
  induction v with
  | null =>
    have h : (text "null").all isPrint = true := by decide
    exact fun _ c hc => .inl (List.all_eq_true.mp h c hc)
  | bool b =>
    have h : ∀ b : Bool, (if b then text "true" else text "false").all isPrint = true := by
      decide
    exact fun _ c hc => .inl (List.all_eq_true.mp (h b) c hc)
  | int n => exact fun _ c hc => .inl (isPrint_of_mem_decimalInt n c hc)
  | float x => exact fun _ c hc => .inl (isPrint_of_mem_jsonFloat x c hc)
  | str s => exact fun _ c hc => .inl (isPrint_of_mem_quote s c hc)
  | arr vs ih =>
    intro d
    rw [Value.render, itemTexts_eq]
    refine char_of_mem_bracket (by decide) (by decide) fun t ht => ?_
    obtain ⟨v, hv, rfl⟩ := List.mem_map.mp ht
    exact ih v hv _
  | obj ms ih =>
    intro d
    rw [Value.render, memberTexts_eq]
    refine char_of_mem_bracket (by decide) (by decide) fun t ht => ?_
    obtain ⟨m, hm, rfl⟩ := List.mem_map.mp ht
    exact char_of_mem_memberText (ih m hm _)

theorem ascii_of_isWs {c : CodePoint} (h : isWs c = true) : c.val < 0x80 := by
  simp only [isWs, Bool.or_eq_true, beq_iff_eq] at h
  rcases h with ((rfl | rfl) | rfl) | rfl <;> decide

/-- **The text of a value is ASCII.** -/
theorem render_ascii (v : Value) (d : ℕ) : IsAscii (v.render L d) := by
  intro c hc
  rcases char_of_mem_render v d c hc with hprint | ⟨e, hopening | hbetween | hclosing⟩ | hcolon
  · exact ascii_of_isPrint hprint
  · exact ascii_of_isWs (L.opening_isWs e c hopening)
  · exact ascii_of_isWs (L.between_isWs e c hbetween)
  · exact ascii_of_isWs (L.closing_isWs e c hclosing)
  · exact ascii_of_isWs (L.afterColon_isWs c hcolon)

end Style

/-! ### Flat objects -/

theorem quote_ascii (s : PyStr) : IsAscii (quote s) := fun c hc =>
  ascii_of_isPrint (isPrint_of_mem_quote s c hc)

theorem jsonFloat_ascii (x : PyFloat) : IsAscii (jsonFloat x) := fun c hc =>
  ascii_of_isPrint (isPrint_of_mem_jsonFloat x c hc)

/-- A member with an ASCII token is written in ASCII. -/
theorem dumpMember_ascii {m : PyStr × Scalar}
    (h : ∀ t, m.2 = .num t → IsAscii t) : IsAscii (dumpMember m) := by
  intro d hd
  rcases List.mem_append.mp hd with hd | hd
  · exact quote_ascii _ d hd
  · rcases List.mem_cons.mp hd with rfl | hd
    · decide
    · cases hm : m.2 with
      | str s => rw [hm] at hd; exact quote_ascii s d hd
      | num t => rw [hm] at hd; exact h t hm d hd

theorem dumps_ascii {ms : List (PyStr × Scalar)}
    (h : ∀ m ∈ ms, ∀ t, m.2 = .num t → IsAscii t) : IsAscii (dumps ms) := by
  have hmembers : IsAscii (dumpMembers ms) := by
    induction ms with
    | nil =>
      intro d hd
      rw [List.mem_singleton.mp hd]
      decide
    | cons m ms ih =>
      have hm := dumpMember_ascii (h m (.head _))
      have hms := ih fun x hx => h x (.tail _ hx)
      cases ms with
      | nil =>
        intro d hd
        rcases List.mem_append.mp hd with hd | hd
        · exact hm d hd
        · rw [List.mem_singleton.mp hd]
          decide
      | cons m' ms =>
        intro d hd
        rcases List.mem_append.mp hd with hd | hd
        · exact hm d hd
        · rcases List.mem_cons.mp hd with rfl | hd
          · decide
          · exact hms d hd
  intro d hd
  rcases List.mem_cons.mp hd with rfl | hd
  · decide
  · exact hmembers d hd

/-- A flat object is written in the compact style. -/
theorem dumps_eq_render {ms : List (PyStr × Scalar)} {vs : Members} (hne : ms ≠ [])
    (h : List.Forall₂ (fun m v => m.1 = v.1 ∧ m.2.dump = v.2.render .compact 1) ms vs) :
    dumps ms = (Value.obj vs).render .compact 0 := by
  have hmember : ∀ {m : PyStr × Scalar} {v : PyStr × Value},
      m.1 = v.1 ∧ m.2.dump = v.2.render .compact 1 →
        dumpMember m = memberText .compact v.1 (v.2.render .compact 1) := by
    rintro m v ⟨hkey, hvalue⟩
    rw [dumpMember, memberText, hkey, hvalue]
    rfl
  -- behind the first member, each one follows a comma
  have htail : ∀ {ms : List (PyStr × Scalar)} {vs : Members} {m : PyStr × Scalar}
      {v : PyStr × Value}, List.Forall₂ (fun m v => m.1 = v.1 ∧ m.2.dump = v.2.render .compact 1)
        (m :: ms) (v :: vs) →
        dumpMembers (m :: ms) = memberText .compact v.1 (v.2.render .compact 1) ++
          tailText .compact 0 0x7d (memberTexts .compact vs 1) := by
    intro ms
    induction ms with
    | nil =>
      rintro vs m v (_ | ⟨hfirst, _ | _⟩)
      rw [dumpMembers, hmember hfirst]
      rfl
    | cons m' ms ih =>
      rintro vs m v (_ | ⟨hfirst, _ | ⟨hnext, hrest⟩⟩)
      rw [dumpMembers, hmember hfirst, ih (.cons hnext hrest)]
      rfl
  cases h with
  | nil => exact absurd rfl hne
  | cons hfirst hrest =>
    rw [dumps, htail (.cons hfirst hrest)]
    rfl

/-- A text over scalar values has no halves of a pair. -/
theorem hasPair_of_isScalar {s : PyStr} (h : IsScalar s) : hasPair s = false := by
  induction s with
  | nil => rfl
  | cons c s ih =>
    rw [IsScalar, List.any_cons, Bool.or_eq_false_iff, isSurrogate, Bool.or_eq_false_iff] at h
    rw [hasPair_cons h.1.1, ih h.2]

/-! ### Octets -/

/-- `json.loads(data)` of octets in UTF-8, or `none` where it raises. -/
def loadBytes (data : Bytes) : Option Value := (decode false data).bind load

theorem loadBytes_utf8 {s : PyStr} (h : IsScalar s) : loadBytes (utf8 s) = load s := by
  rw [loadBytes, decode_utf8 h, Option.bind_some]

/-- What is loaded from the octets of a value. -/
theorem loadBytes_render {v : Value} (h : v.printable = true) (L : Style) :
    loadBytes (utf8 (v.render L 0)) = some v.joined.dict := by
  rw [loadBytes_utf8 (render_ascii v 0).isScalar, load, parse_render L h]
  rfl

/-- **A loaded value is read back from its octets.** -/
theorem Value.Loaded.loadBytes_render {v : Value} (h : v.Loaded) (L : Style) :
    loadBytes (utf8 (v.render L 0)) = some v := by
  rw [loadBytes_utf8 (render_ascii v 0).isScalar, h.load_render]

end Json
end Python
end SovereignSeed
