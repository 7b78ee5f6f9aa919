import SovereignSeed.Commons.Manifest

/-!
# What a manifest signature binds

The canonical bytes of a manifest are a labelled record: the text fields behind
their labels, with the timeout as part of the label of the evidence hash.  A
field may hold anything, also the labels next to it, and then the bytes belong
to a second manifest as well.

## Main definitions

* `manifestLabels` — the families of labels; `signedParts` — the record.
* `LabelFree` — no text field holds a label next to it.

## Main results

* `canonicalStr_eq` — the canonical text is the text of the record.
* `fields_determined_iff` — **the bytes determine the signed fields exactly when
  no text field holds a label next to it.**
-/

namespace SovereignSeed
namespace Commons

open Python Tollbridge Delimited

/-! ### The record -/

/-- The numerals of the timeouts the validator takes. -/
def timeoutTexts : Set PyStr := {n | ∃ v, ValidTimeout v ∧ v.toStr = n}

/-- The label of the evidence hash, together with the timeout in front of it. -/
def timeoutLabel (n : PyStr) : PyStr := text "|timeout:" ++ n ++ text "|evidence_hash:"

/-- The labels, in the order of the fields behind them. -/
def manifestLabels : List (Set PyStr) :=
  [{text "|cell:"}, {text "|pubkey:"}, {text "|task:"}, {text "|resource:"},
    {l | ∃ n ∈ timeoutTexts, l = timeoutLabel n}]

/-- The text fields behind the first one, each with its label. -/
def signedParts (m : Dict) : List (PyStr × PyStr) :=
  [(text "|cell:", (m.get "cell_id").toStr),
   (text "|pubkey:", (m.get "client_pubkey").toStr),
   (text "|task:", (m.get "task_type").toStr),
   (text "|resource:", (m.get "target_resource").toStr),
   (timeoutLabel (m.get "execution_timeout_sec").toStr, (m.get "expected_evidence_hash").toStr)]

/-- No text field holds the label in front of it or the label behind it. -/
def LabelFree (m : Dict) : Prop :=
  Clean manifestLabels (m.get "manifest_version").toStr (signedParts m)

/-- The canonical text is the text of the record, between the first label and
the timestamp. -/
theorem canonicalStr_eq (m : Dict) :
    canonicalStr m =
      text "version:" ++ (joined (m.get "manifest_version").toStr (signedParts m) ++
        0x7c :: (text "timestamp:" ++ (m.get "timestamp_sec").toStr)) := by
  have hcell : text "|cell:" = text "|" ++ text "cell:" := rfl
  have hpubkey : text "|pubkey:" = text "|" ++ text "pubkey:" := rfl
  have htask : text "|task:" = text "|" ++ text "task:" := rfl
  have hresource : text "|resource:" = text "|" ++ text "resource:" := rfl
  have htimeout : text "|timeout:" = text "|" ++ text "timeout:" := rfl
  have hevidence : text "|evidence_hash:" = text "|" ++ text "evidence_hash:" := rfl
  have hbar : ∀ s : PyStr, (0x7c : CodePoint) :: s = text "|" ++ s := fun _ => rfl
  simp only [canonicalStr, signedParts, timeoutLabel, joined, hbar, hcell, hpubkey, htask,
    hresource, htimeout, hevidence, List.append_assoc]

/-! ### The labels -/

/-- The bar is in no number. -/
theorem bar_not_mem_toStr {v : PyValue} (hv : v.isNumber = true) : (0x7c : CodePoint) ∉ v.toStr := by
  intro hmem
  rcases mem_floatChars_of_mem_toStr hv with ⟨b, rfl⟩ | hchars
  · revert hmem
    cases b <;> decide
  · exact absurd (hchars _ hmem) (by decide)

/-- Labels of one family do not overlap: each has its bars in known places. -/
theorem separating_manifestLabels : ∀ L ∈ manifestLabels, Separating L := by
  have hframe : Separating {l | ∃ n ∈ timeoutTexts, l = timeoutLabel n} := by
    have hshape : ∀ n, timeoutLabel n =
        0x7c :: (0x74 :: text "imeout:" ++ n ++ 0x7c :: 0x65 :: text "vidence_hash:") :=
      fun _ => rfl
    simp only [hshape]
    apply Separating.framed (by decide) (by decide) (by decide)
    rintro n ⟨v, hv, rfl⟩
    exact bar_not_mem_toStr hv.1
  intro L hL
  simp only [manifestLabels, List.mem_cons, List.not_mem_nil, or_false] at hL
  rcases hL with rfl | rfl | rfl | rfl | rfl
  · exact Separating.singleton (c := 0x7c) (t := text "cell:") (by decide)
  · exact Separating.singleton (c := 0x7c) (t := text "pubkey:") (by decide)
  · exact Separating.singleton (c := 0x7c) (t := text "task:") (by decide)
  · exact Separating.singleton (c := 0x7c) (t := text "resource:") (by decide)
  · exact hframe

/-- The labels of a typed manifest are of their families. -/
theorem Typed.labelled {m : Dict} (h : Typed m) : Labelled manifestLabels (signedParts m) :=
  .cons rfl (.cons rfl (.cons rfl (.cons rfl (.cons ⟨_, ⟨_, h.timeout, rfl⟩, rfl⟩ .nil))))

/-! ### Manifests and records -/

/-- Equal texts have equal records and equal timestamps: the last bar stands
before the timestamp. -/
theorem record_eq_of_canonicalStr_eq {m m' : Dict} (h : Typed m) (h' : Typed m')
    (heq : canonicalStr m = canonicalStr m') :
    joined (m.get "manifest_version").toStr (signedParts m) =
        joined (m'.get "manifest_version").toStr (signedParts m') ∧
      (m.get "timestamp_sec").toStr = (m'.get "timestamp_sec").toStr := by
  have hlast : ∀ {v : PyValue}, v.isNumber = true →
      (0x7c : CodePoint) ∉ text "timestamp:" ++ v.toStr := by
    intro v hv hmem
    rcases List.mem_append.mp hmem with hmem | hmem
    · exact absurd hmem (by decide)
    · exact bar_not_mem_toStr hv hmem
  rw [canonicalStr_eq, canonicalStr_eq] at heq
  obtain ⟨hrecord, hstamp⟩ := eq_of_append_cons_eq_of_last (hlast h.timestamp.1)
    (hlast h'.timestamp.1) (List.append_cancel_left heq)
  exact ⟨hrecord, List.append_cancel_left hstamp⟩

/-- Typed manifests with one record and one timestamp have the same fields. -/
theorem fields_eq_of_record_eq {m m' : Dict} (h : Typed m) (h' : Typed m')
    (hversion : (m.get "manifest_version").toStr = (m'.get "manifest_version").toStr)
    (hparts : signedParts m = signedParts m')
    (hstamp : (m.get "timestamp_sec").toStr = (m'.get "timestamp_sec").toStr) :
    ∀ k ∈ signedFields, m.get k = m'.get k := by
  simp only [signedParts, timeoutLabel, List.cons.injEq, Prod.mk.injEq, true_and, and_true,
    List.append_cancel_left_eq, List.append_cancel_right_eq] at hparts
  obtain ⟨hcell, hpubkey, htask, hresource, htimeout, hevidence⟩ := hparts
  intro k hk
  apply h.toStr_injective h' hk
  simp only [signedFields, List.mem_cons, List.not_mem_nil, or_false] at hk
  rcases hk with rfl | rfl | rfl | rfl | rfl | rfl | rfl | rfl
  · exact hversion
  · exact hcell
  · exact hpubkey
  · exact htask
  · exact hresource
  · exact htimeout
  · exact hevidence
  · exact hstamp

/-- A manifest with given signed fields. -/
def manifestOf (version cell pubkey task resource : PyStr) (timeout : PyValue) (evidence : PyStr)
    (timestamp : PyValue) : Dict :=
  [(text "manifest_version", .str version), (text "cell_id", .str cell),
   (text "client_pubkey", .str pubkey), (text "task_type", .str task),
   (text "target_resource", .str resource), (text "execution_timeout_sec", timeout),
   (text "expected_evidence_hash", .str evidence), (text "timestamp_sec", timestamp)]

theorem typed_manifestOf {version cell pubkey task resource evidence : PyStr}
    {timeout timestamp : PyValue} (htimeout : ValidTimeout timeout)
    (htimestamp : ValidTimestamp timestamp) (rest : Dict) :
    Typed (manifestOf version cell pubkey task resource timeout evidence timestamp ++ rest) where
  strings := by
    intro k hk
    simp only [textFields, List.mem_cons, List.not_mem_nil, or_false] at hk
    rcases hk with rfl | rfl | rfl | rfl | rfl | rfl
    · exact ⟨version, rfl⟩
    · exact ⟨cell, rfl⟩
    · exact ⟨pubkey, rfl⟩
    · exact ⟨task, rfl⟩
    · exact ⟨resource, rfl⟩
    · exact ⟨evidence, rfl⟩
  timeout := htimeout
  timestamp := htimestamp

/-- Every record over the labels is that of a typed manifest, with any timestamp. -/
theorem exists_typed_of_labelled (version : PyStr) {parts : List (PyStr × PyStr)}
    {timestamp : PyValue} (hparts : Labelled manifestLabels parts)
    (htimestamp : ValidTimestamp timestamp) :
    ∃ m, Typed m ∧ (m.get "manifest_version").toStr = version ∧ signedParts m = parts ∧
      m.get "timestamp_sec" = timestamp := by
  rcases hparts with _ | @⟨_, ⟨l₁, cell⟩, _, _, h₁, hparts⟩
  rcases hparts with _ | @⟨_, ⟨l₂, pubkey⟩, _, _, h₂, hparts⟩
  rcases hparts with _ | @⟨_, ⟨l₃, task⟩, _, _, h₃, hparts⟩
  rcases hparts with _ | @⟨_, ⟨l₄, resource⟩, _, _, h₄, hparts⟩
  rcases hparts with _ | @⟨_, ⟨l₅, evidence⟩, _, _, h₅, hparts⟩
  cases hparts
  obtain rfl : l₁ = text "|cell:" := h₁
  obtain rfl : l₂ = text "|pubkey:" := h₂
  obtain rfl : l₃ = text "|task:" := h₃
  obtain rfl : l₄ = text "|resource:" := h₄
  obtain ⟨n, ⟨timeout, htimeout, rfl⟩, rfl⟩ : ∃ n ∈ timeoutTexts, l₅ = timeoutLabel n := h₅
  exact ⟨manifestOf version cell pubkey task resource timeout evidence timestamp ++ [],
    typed_manifestOf htimeout htimestamp [], rfl, rfl, rfl⟩

/-! ### What the bytes determine -/

/-- **The bytes determine the signed fields exactly when no text field holds a
label next to it**, or when the manifest has no bytes at all. -/
theorem fields_determined_iff (m : Dict) (h : Typed m) :
    (∀ m', Typed m' → ∀ bytes, buildCanonicalManifestBytes m = some bytes →
      buildCanonicalManifestBytes m' = some bytes → ∀ k ∈ signedFields, m.get k = m'.get k) ↔
    (buildCanonicalManifestBytes m = none ∨ LabelFree m) := by
  have hiff := determined_iff_clean (f := (m.get "manifest_version").toStr)
    separating_manifestLabels h.labelled
  constructor
  · intro hbound
    cases hbytes : buildCanonicalManifestBytes m with
    | none => exact .inl rfl
    | some bytes =>
      refine .inr (hiff.mp fun version parts hparts hjoined => ?_)
      obtain ⟨m', h', rfl, rfl, hstamp⟩ := exists_typed_of_labelled version hparts h.timestamp
      have hstr : canonicalStr m' = canonicalStr m := by
        rw [canonicalStr_eq, canonicalStr_eq, hjoined, hstamp]
      have hbytes' : buildCanonicalManifestBytes m' = some bytes := by
        rw [h'.bytes, hstr, ← h.bytes, hbytes]
      have hfields := hbound m' h' bytes hbytes hbytes'
      have hget : ∀ k ∈ signedFields, (m'.get k).toStr = (m.get k).toStr :=
        fun k hk => by rw [hfields k hk]
      refine ⟨hget _ (by decide), ?_⟩
      rw [signedParts, hget "cell_id" (by decide), hget "client_pubkey" (by decide),
        hget "task_type" (by decide), hget "target_resource" (by decide),
        hget "execution_timeout_sec" (by decide), hget "expected_evidence_hash" (by decide),
        signedParts]
  · rintro (hnone | hclean) m' h' bytes hbytes hbytes'
    · rw [hnone] at hbytes
      cases hbytes
    · rw [h.bytes] at hbytes
      rw [h'.bytes] at hbytes'
      obtain ⟨hrecord, hstamp⟩ := record_eq_of_canonicalStr_eq h h'
        (encode_injective hbytes hbytes')
      obtain ⟨hversion, hparts⟩ := eq_of_joined_eq separating_manifestLabels h.labelled
        h'.labelled hclean hrecord
      exact fields_eq_of_record_eq h h' hversion hparts hstamp

/-- A manifest of the holder of `aliceKey`, with a label inside its resource. -/
def labelledResource : Dict :=
  manifestOf (text "v1.0") (text "cell_alpha_01") aliceAddress (text "state_resurrection")
    (text "git://a|resource:git://b") (.int 30) (text "e3b0") (.int 1700000000)

/-- The manifest that reads the label as the end of the task. -/
def movedResource : Dict :=
  manifestOf (text "v1.0") (text "cell_alpha_01") aliceAddress
    (text "state_resurrection|resource:git://a") (text "git://b") (.int 30) (text "e3b0")
    (.int 1700000000)

/-- The key's signature over the canonical bytes of `labelledResource`. -/
def resourceSignature : Bytes :=
  bytesOf 32 0x2623c684720ece8932d65c9f0b67b1971d05dc1091126a378d0967174906fb5d ++
    bytesOf 32 0x01e1fc17f6c0d4e49e362d8d4747b0b56f7111dbff25298a61f17d903015f409

/-- The functions of other packages, on the calls the two manifests lead to. -/
def resourceCrypto : Crypto :=
  .ofTable [] [(aliceAddress, aliceKey)]
    [(aliceKey, utf8 (canonicalStr labelledResource), resourceSignature)]

theorem typed_labelledResource : Typed labelledResource :=
  typed_manifestOf (by decide +kernel) (by decide +kernel) []

theorem typed_movedResource : Typed movedResource :=
  typed_manifestOf (by decide +kernel) (by decide +kernel) []

/-- One signature, two tasks: the bytes do not determine the fields, and the
validator accepts both manifests. -/
theorem fields_not_determined :
    ¬ (∀ m m', Typed m → Typed m' → ∀ bytes, buildCanonicalManifestBytes m = some bytes →
        buildCanonicalManifestBytes m' = some bytes → ∀ k ∈ signedFields, m.get k = m'.get k) ∧
      ∀ m ∈ [labelledResource, movedResource],
        validateManifest resourceCrypto
          (some (m ++ [(text "signature_hex", .str (hexOf resourceSignature))])) =
          .ok (true, "OK") := by
  refine ⟨fun hbound => ?_, by decide +kernel⟩
  have hsame : buildCanonicalManifestBytes movedResource =
      buildCanonicalManifestBytes labelledResource := by decide +kernel
  obtain ⟨bytes, hbytes⟩ := Option.isSome_iff_exists.mp
    (show (buildCanonicalManifestBytes labelledResource).isSome = true by decide +kernel)
  have htask := hbound labelledResource movedResource typed_labelledResource typed_movedResource
    bytes hbytes (hsame.trans hbytes) "task_type" (by decide)
  exact absurd htask (by decide)

/-- A manifest with plain fields, for which the equivalence holds. -/
theorem fields_determined_iff_moved :
    (∀ m', Typed m' → ∀ bytes, buildCanonicalManifestBytes movedResource = some bytes →
      buildCanonicalManifestBytes m' = some bytes →
        ∀ k ∈ signedFields, movedResource.get k = m'.get k) ↔
    (buildCanonicalManifestBytes movedResource = none ∨ LabelFree movedResource) :=
  fields_determined_iff movedResource typed_movedResource

end Commons
end SovereignSeed
