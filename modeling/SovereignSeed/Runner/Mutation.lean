import SovereignSeed.Python.JsonOrder
import SovereignSeed.Resurrection.Checkpoint

/-!
# Mutation packets

`tools/cell_runner.py`, the commands `run` and `dry-run`, and the signing of a packet in
`setup_p12.py`.  A packet is signed over its text with sorted keys, stored with an
indent, and read back; the runner sorts the keys of what it has read and computes the
HMAC of that text again.

## Main definitions

* `hmacSha256` — the HMAC over SHA-256.
* `signature`, `packetFile` — the signing of a packet, and its file.
* `Host` — the environment, the repository and the commands of the runner.
* `verifyMutation`, `cmdRun` — the check of a file, and the run of its command.

## Main results

* `verifyMutation_packetFile` — **a signed packet is read back as it was.**
* `verifyMutation_eq_ok_iff` — what the check accepts.
* `mutation_packets` — **a file with the signature of a packet starts nothing but the
  command of that packet.**
-/

namespace SovereignSeed
namespace Runner

open Python Json Tollbridge Resurrection

/-! ### HMAC -/

/-- `hmac.new(key, msg, hashlib.sha256).digest()`; a block of SHA-256 is 64 bytes. -/
def hmacSha256 (C : Crypto) (key msg : Bytes) : Bytes :=
  let k := if 64 < key.length then C.sha256 key else key
  let block := k ++ List.replicate (64 - k.length) 0
  C.sha256 (block.map (· ^^^ 0x5c) ++ C.sha256 (block.map (· ^^^ 0x36) ++ msg))

/-! ### Signing -/

/-- The members a signature is about. -/
def unsigned (packet : Members) : Members := packet.filter fun m => m.1 ≠ text "signature"

/-- The signature of the members, or `none` where `json.dumps` raises. -/
def signature (C : Crypto) (secret : Bytes) (data : Members) : Option PyStr :=
  ((Value.obj data).sortKeys.dumps .spaced).map fun payload =>
    hexOf (hmacSha256 C secret (utf8 payload))

/-- What `setup_p12.py` writes for a packet, or `none` where `json.dumps` raises. -/
def packetFile (C : Crypto) (secret : Bytes) (packet : Members) : Option Bytes :=
  (signature C secret (unsigned packet)).bind fun sig =>
    ((Value.obj (setItem packet (text "signature", .str sig))).dumps .indented).map utf8

/-! ### The runner -/

/-- How a command ends before its end. -/
inductive Abort
  | exit (code : ℤ)
  | raised

/-- The processes the runner starts. -/
inductive Process
  /-- `git status --porcelain`. -/
  | gitStatus
  /-- `subprocess.run(cmd)`. -/
  | packet (cmd : Value)

/-- What the runner finds around it. -/
structure Host where
  crypto : Crypto
  /-- `os.environ.get("SOVEREIGN_SECRET")`. -/
  sovereignSecret : Option PyStr
  /-- The output of `git status --porcelain`, or `none` where the call raises. -/
  gitStatus : Option PyStr
  /-- A line with the value can be printed. -/
  prints : Value → Bool
  /-- The return code of `subprocess.run(cmd)`, or `none` where that or printing its output
  raises. -/
  run : Value → Option ℤ

/-- `get_secret`. -/
def getSecret (H : Host) : Except Abort Bytes :=
  match H.sovereignSecret with
  | none => .error (.exit 1)
  | some secret =>
    match encode secret with
    | none => .error .raised
    | some bytes => .ok bytes

/-- `verify_clean_checkout`. -/
def verifyCleanCheckout (H : Host) : Except Abort Unit :=
  match H.gitStatus with
  | none => .error .raised
  | some stdout => if strip stdout ≠ [] then .error (.exit 1) else .ok ()

/-- `hmac.compare_digest(sig, expected_sig)`: a `TypeError` unless both are ASCII strings. -/
def compareDigest (sig : Value) (expectedSig : PyStr) : Except Abort Bool :=
  match sig with
  | .str s => if IsAscii s then .ok (s = expectedSig) else .error .raised
  | _ => .error .raised

/-- `verify_mutation`, given the octets of the file; `none` if they cannot be read. -/
def verifyMutation (H : Host) (file : Option Bytes) : Except Abort Members :=
  match getSecret H with
  | .error e => .error e
  | .ok secret =>
    match (file.bind (readText false)).bind load with
    | some (.obj data) =>
      match signature H.crypto secret (unsigned data) with
      | none => .error .raised
      | some expectedSig =>
        if truthy (field data "signature") = false then .error (.exit 1)
        else
          match compareDigest (field data "signature") expectedSig with
          | .error e => .error e
          | .ok false => .error (.exit 1)
          | .ok true => .ok (unsigned data)
    | _ => .error .raised

/-- `cmd_run`: the processes it has started, and how it ends. -/
def cmdRun (H : Host) (file : Option Bytes) : List Process × Except Abort Unit :=
  match verifyCleanCheckout H with
  | .error e => ([.gitStatus], .error e)
  | .ok () =>
    match verifyMutation H file with
    | .error e => ([.gitStatus], .error e)
    | .ok mutation =>
      match mutation.lookup (text "objective") with
      | none => ([.gitStatus], .error .raised)
      | some objective =>
        if H.prints objective = false then ([.gitStatus], .error .raised)
        else
          match mutation.lookup (text "allowed_commands") with
          | none => ([.gitStatus], .error .raised)
          | some cmd =>
            match H.run cmd with
            | none => ([.gitStatus, .packet cmd], .error .raised)
            | some returncode =>
              if returncode ≠ 0 then ([.gitStatus, .packet cmd], .error (.exit returncode))
              else ([.gitStatus, .packet cmd], .ok ())

/-! ### What is accepted -/

/-- **What the check accepts**: an object with the signature of its other members. -/
theorem verifyMutation_eq_ok_iff {H : Host} {file : Option Bytes} {mutation : Members} :
    verifyMutation H file = .ok mutation ↔ ∃ secret data sig, getSecret H = .ok secret ∧
      (file.bind (readText false)).bind load = some (.obj data) ∧ unsigned data = mutation ∧
        signature H.crypto secret mutation = some sig ∧ field data "signature" = .str sig ∧
          sig ≠ [] ∧ IsAscii sig := by
  unfold verifyMutation
  constructor
  · intro h
    split at h
    · cases h
    next secret hsecret =>
    split at h
    · next data hload =>
      split at h
      · cases h
      next sig hsig =>
      split at h
      · cases h
      next htruthy =>
      split at h
      · cases h
      · cases h
      next hcompare =>
      cases h
      unfold compareDigest at hcompare
      split at hcompare
      · next s hfield =>
        split at hcompare
        · next hascii =>
          obtain rfl : s = sig := by simpa using hcompare
          refine ⟨secret, data, s, hsecret, hload, rfl, hsig, hfield, ?_, hascii⟩
          rintro rfl
          rw [hfield] at htruthy
          exact htruthy rfl
        · cases hcompare
      · cases hcompare
    · cases h
  · rintro ⟨secret, data, sig, hsecret, hload, rfl, hsig, hfield, hne, hascii⟩
    have htruthy : truthy (.str sig) = true := by simp [truthy, hne]
    simp [hsecret, hload, hsig, hfield, htruthy, compareDigest, hascii]

/-- A process the runner starts is that of the clean checkout, or the command of a packet
that was accepted. -/
theorem mem_cmdRun {H : Host} {file : Option Bytes} {process : Process}
    (h : process ∈ (cmdRun H file).1) : process = .gitStatus ∨ ∃ mutation cmd,
      verifyMutation H file = .ok mutation ∧
        mutation.lookup (text "allowed_commands") = some cmd ∧ process = .packet cmd := by
  have hfirst : ∀ {e : Except Abort Unit},
      process ∈ (([.gitStatus], e) : List Process × Except Abort Unit).1 → process = .gitStatus :=
    fun hmem => List.mem_singleton.mp hmem
  unfold cmdRun at h
  split at h
  · exact .inl (hfirst h)
  split at h
  · exact .inl (hfirst h)
  next mutation hverify =>
  split at h
  · exact .inl (hfirst h)
  split at h
  · exact .inl (hfirst h)
  split at h
  · exact .inl (hfirst h)
  next cmd hcmd =>
  have hmem : process ∈ [Process.gitStatus, .packet cmd] := by
    split at h
    · exact h
    · split at h <;> exact h
  simp only [List.mem_cons, List.not_mem_nil, or_false] at hmem
  exact hmem.imp id fun heq => ⟨mutation, cmd, hverify, hcmd, heq⟩

/-- The checkout is looked at first. -/
theorem gitStatus_mem_cmdRun (H : Host) (file : Option Bytes) :
    .gitStatus ∈ (cmdRun H file).1 := by
  unfold cmdRun
  split
  · exact .head _
  split
  · exact .head _
  split
  · exact .head _
  split
  · exact .head _
  split
  · exact .head _
  split
  · exact .head _
  split
  · exact .head _
  · exact .head _

/-- A refused file starts nothing but the check of the checkout. -/
theorem cmdRun_of_refused {H : Host} {file : Option Bytes} {e : Abort}
    (h : verifyMutation H file = .error e) : (cmdRun H file).1 = [.gitStatus] := by
  unfold cmdRun
  rw [h]
  split <;> rfl

/-! ### A signed packet -/

theorem isAscii_hexOf (digest : Bytes) : IsAscii (hexOf digest) := by
  intro c hc
  obtain ⟨b, -, hc⟩ := List.mem_flatMap.mp hc
  have hb := b.toNat_lt
  simp only [List.mem_cons, List.not_mem_nil, or_false] at hc
  rcases hc with rfl | rfl
  · exact ascii_of_isPrint (isPrint_hexDigit _ (by omega))
  · exact ascii_of_isPrint (isPrint_hexDigit _ (by omega))

theorem signature_eq (C : Crypto) (secret : Bytes) {data : Members}
    (h : (Value.obj data).printable = true) : signature C secret data =
      some (hexOf (hmacSha256 C secret (utf8 ((Value.obj data).sortKeys.render .spaced 0)))) := by
  rw [signature, Value.dumps, if_pos ((printable_sortKeys_iff _).mpr h)]
  rfl

theorem unsigned_eq_self {packet : Members} (h : text "signature" ∉ packet.map Prod.fst) :
    unsigned packet = packet :=
  List.filter_eq_self.mpr fun m hm => decide_eq_true fun heq =>
    h (List.mem_map.mpr ⟨m, hm, heq⟩)

/-- There is no carriage return in an indented text. -/
theorem ne_return_of_mem_render (v : Value) (d : ℕ) : ∀ c ∈ v.render .indented d, c ≠ 0x0d := by
  have hnewline : ∀ d, ∀ c ∈ newline d, c ≠ 0x0d := by
    intro d c hc
    rcases List.mem_cons.mp hc with rfl | hc
    · decide
    · rw [List.eq_of_mem_replicate hc]
      decide
  rintro c hc rfl
  rcases char_of_mem_render v d _ hc with hprint | ⟨e, hopening | hbetween | hclosing⟩ | hcolon
  · exact absurd hprint (by decide)
  · exact hnewline _ _ hopening rfl
  · exact hnewline _ _ hbetween rfl
  · exact hnewline _ _ hclosing rfl
  · exact absurd (List.mem_singleton.mp hcolon) (by decide)

/-- The octets of an indented text are loaded as the value. -/
theorem load_file {v : Value} (h : v.Loaded) :
    ((some (utf8 (v.render .indented 0))).bind (readText false)).bind load = some v := by
  rw [Option.bind_some, readText_utf8 (render_ascii v 0).isScalar (ne_return_of_mem_render v 0),
    Option.bind_some, h.load_render]

/-- **A signed packet is read back as it was.** -/
theorem verifyMutation_packetFile {H : Host} (hsize : DigestSize H.crypto) {secret : Bytes}
    (hsecret : getSecret H = .ok secret) {packet : Members} (hplain : (Value.obj packet).Plain)
    (hprintable : (Value.obj packet).printable = true)
    (hno : text "signature" ∉ packet.map Prod.fst) :
    ∃ file, packetFile H.crypto secret packet = some file ∧
      verifyMutation H (some file) = .ok packet := by
  have hsig := signature_eq H.crypto secret hprintable
  generalize hdigest : hmacSha256 H.crypto secret _ = digest at hsig
  -- the signed packet, with its signature at the end
  have hset : setItem packet (text "signature", .str (hexOf digest)) =
      packet ++ [(text "signature", .str (hexOf digest))] := by
    rw [setItem, if_neg]
    intro hany
    obtain ⟨m, hm, heq⟩ := List.any_eq_true.mp hany
    exact hno (List.mem_map.mpr ⟨m, hm, of_decide_eq_true heq⟩)
  obtain ⟨hnodup, hkeys, hvalues⟩ := plain_obj.mp hplain
  have hnodup' : ((packet ++ [(text "signature", Value.str (hexOf digest))]).map
      Prod.fst).Nodup := by
    rw [List.map_append, List.map_singleton]
    refine hnodup.append (List.nodup_singleton _) fun k hk hk' => hno ?_
    obtain rfl : k = text "signature" := List.mem_singleton.mp hk'
    exact hk
  have hloaded : (Value.obj (packet ++ [(text "signature", .str (hexOf digest))])).Loaded := by
    have hkey : IsScalar (text "signature") := by decide
    have hplain' : (Value.obj (packet ++ [(text "signature", .str (hexOf digest))])).Plain := by
      refine .obj hnodup' (List.forall_mem_append.mpr ⟨hkeys, ?_⟩)
        (List.forall_mem_append.mpr ⟨hvalues, ?_⟩)
      · exact List.forall_mem_singleton.mpr hkey
      · exact List.forall_mem_singleton.mpr (.str (isAscii_hexOf digest).isScalar)
    refine hplain'.loaded_iff.mpr (printable_obj.mpr ?_)
    exact List.forall_mem_append.mpr ⟨printable_obj.mp hprintable,
      List.forall_mem_singleton.mpr rfl⟩
  refine ⟨utf8 ((Value.obj (packet ++ [(text "signature", .str (hexOf digest))])).render
    .indented 0), ?_, ?_⟩
  · rw [packetFile, unsigned_eq_self hno, hsig, Option.bind_some, hset, Value.dumps,
      if_pos hloaded.printable]
    rfl
  · refine verifyMutation_eq_ok_iff.mpr ⟨secret, _, _, hsecret, load_file hloaded, ?_, hsig, ?_, ?_,
      isAscii_hexOf digest⟩
    · rw [unsigned, List.filter_append, List.filter_cons_of_neg (by simp), List.filter_nil,
        List.append_nil]
      exact unsigned_eq_self hno
    · exact field_of_mem hnodup' (by simp)
    · intro hnil
      have hlen := length_hexOf digest
      rw [hnil, ← hdigest, hmacSha256, hsize] at hlen
      cases hlen

/-! ### A file with the signature of a packet -/

/-- HMAC-SHA256 has no collision on the texts of the two. -/
def SignaturesApart (C : Crypto) (secret : Bytes) (data data' : Members) : Prop :=
  hmacSha256 C secret (utf8 ((Value.obj data).sortKeys.render .spaced 0)) =
      hmacSha256 C secret (utf8 ((Value.obj data').sortKeys.render .spaced 0)) →
    (Value.obj data).sortKeys.render .spaced 0 = (Value.obj data').sortKeys.render .spaced 0

theorem loaded_unsigned {data : Members} (h : (Value.obj data).Loaded) :
    (Value.obj (unsigned data)).Loaded := by
  cases h with
  | obj hnodup hkeys hvalues =>
    have hsub : (unsigned data).Sublist data := List.filter_sublist
    exact .obj (hnodup.sublist (hsub.map _)) (fun m hm => hkeys m (hsub.subset hm))
      fun m hm => hvalues m (hsub.subset hm)

/-- **A file that is accepted with the signature of a packet holds that packet**, up to the
order of keys. -/
theorem same_of_accepted {H : Host} {secret : Bytes} (hsecret : getSecret H = .ok secret)
    {packet : Members} (hplain : (Value.obj packet).Plain)
    (hprintable : (Value.obj packet).printable = true) {file : Option Bytes} {data : Members}
    {sig : PyStr} (hload : (file.bind (readText false)).bind load = some (.obj data))
    (hsig : signature H.crypto secret packet = some sig)
    (hfield : field data "signature" = .str sig)
    (hfree : SignaturesApart H.crypto secret packet (unsigned data)) {mutation : Members}
    (haccepted : verifyMutation H file = .ok mutation) :
    mutation = unsigned data ∧ Same (.obj mutation) (.obj packet) := by
  obtain ⟨secret', data', sig', hsecret', hload', rfl, hsig', hfield', -, -⟩ :=
    verifyMutation_eq_ok_iff.mp haccepted
  rw [hsecret] at hsecret'
  cases hsecret'
  rw [hload] at hload'
  cases hload'
  rw [hfield] at hfield'
  cases hfield'
  refine ⟨rfl, ?_⟩
  obtain ⟨contents, -, hcontents⟩ := Option.bind_eq_some_iff.mp hload
  have hloaded := loaded_unsigned (loaded_of_load hcontents)
  -- one signature, so one text
  rw [signature_eq _ _ hprintable] at hsig
  rw [signature_eq _ _ hloaded.printable, ← hsig] at hsig'
  have htexts := hfree (hexOf_injective (Option.some.inj hsig').symm)
  exact (hplain.loaded_iff.mpr hprintable).sortKeys.eq_of_render_eq hloaded.sortKeys htexts |>.symm

/-- **Mutation packets**: a packet that is signed and stored is read back as it was; and a
file with its signature and other members is refused, so that a file with its signature
starts nothing but the check of the checkout and the command that was signed. -/
theorem mutation_packets (H : Host) (hsize : DigestSize H.crypto) {secret : Bytes}
    (hsecret : getSecret H = .ok secret) {packet : Members} (hplain : (Value.obj packet).Plain)
    (hprintable : (Value.obj packet).printable = true)
    (hno : text "signature" ∉ packet.map Prod.fst) :
    (∃ file, packetFile H.crypto secret packet = some file ∧
        verifyMutation H (some file) = .ok packet) ∧
      ∀ file data sig, (file.bind (readText false)).bind load = some (.obj data) →
        signature H.crypto secret packet = some sig → field data "signature" = .str sig →
        SignaturesApart H.crypto secret packet (unsigned data) →
          (¬Reordered (.obj (unsigned data)) (.obj packet) →
              (∃ e, verifyMutation H file = .error e) ∧ (cmdRun H file).1 = [.gitStatus]) ∧
            ∀ process ∈ (cmdRun H file).1, process = .gitStatus ∨ ∃ cmd signed,
              process = .packet cmd ∧ packet.lookup (text "allowed_commands") = some signed ∧
                Reordered cmd signed := by
  refine ⟨verifyMutation_packetFile hsize hsecret hplain hprintable hno, ?_⟩
  intro file data sig hload hsig hfield hfree
  constructor
  · intro hother
    cases hverify : verifyMutation H file with
    | error e => exact ⟨⟨e, rfl⟩, cmdRun_of_refused hverify⟩
    | ok mutation =>
      obtain ⟨rfl, hsame⟩ :=
        same_of_accepted hsecret hplain hprintable hload hsig hfield hfree hverify
      exact absurd (reordered_of_same hsame) hother
  · intro process hprocess
    rcases mem_cmdRun hprocess with hgit | ⟨mutation, cmd, hverify, hcmd, hrun⟩
    · exact .inl hgit
    · obtain ⟨rfl, hsame⟩ :=
        same_of_accepted hsecret hplain hprintable hload hsig hfield hfree hverify
      obtain ⟨contents, -, hcontents⟩ := Option.bind_eq_some_iff.mp hload
      have hnodup : ((unsigned data).map Prod.fst).Nodup := by
        cases loaded_unsigned (loaded_of_load hcontents) with
        | obj hnodup _ _ => exact hnodup
      obtain ⟨signed, hmem, hsigned⟩ :=
        exists_mem_of_same hsame ((lookup_eq_some_iff hnodup).mp hcmd)
      exact .inr ⟨cmd, signed, hrun, (lookup_eq_some_iff (plain_obj.mp hplain).1).mpr hmem,
        reordered_of_same hsigned⟩

/-! ### Two packets of a cell -/

/-- The secret of `setup_p12.py`. -/
def cellSecret : PyStr := text "sovereign_ephemeral_key_999"

/-- A packet that runs a script. -/
def cellPacket (script : String) : Members :=
  [(text "objective", .str (text "Cell Alpha")),
    (text "allowed_commands", .arr [.str (text "python3"), .str (text script)]),
    (text "timeout_seconds", .int 5)]

/-- The text of such a packet that is signed. -/
def cellPayload (script : String) : Bytes :=
  utf8 ((Value.obj (cellPacket script)).sortKeys.render .spaced 0)

/-- The block of the secret. -/
def cellBlock (pad : UInt8) : Bytes :=
  (utf8 cellSecret ++ List.replicate (64 - (utf8 cellSecret).length) 0).map (· ^^^ pad)

/-- The digests of the inner hash and of the HMAC, for the texts of two packets. -/
def innerDigest : Bytes :=
  bytesOf 32 0xc21383920899a8641eba0a40ae0748a7ffa64c3bb5af2519d7a377256ab99a54

@[inherit_doc innerDigest]
def outerDigest : Bytes :=
  bytesOf 32 0x57d367644c40529259279cb1709981d766117a063e5da617f55ae5381016a66f

@[inherit_doc innerDigest]
def innerDigest' : Bytes :=
  bytesOf 32 0x1eb6cfc12c075c7593cd0075e702aa7bd65d1f457338e53f4f8e12193c0b7855

@[inherit_doc innerDigest]
def outerDigest' : Bytes :=
  bytesOf 32 0x066f83a2f636c0f96f9140f2288c87530b7392b63c8fe57abef4482496ef38a6

/-- SHA-256 within the two HMACs. -/
def cellDigests : List (Bytes × Bytes) :=
  [(cellBlock 0x36 ++ cellPayload "tools/boot.py", innerDigest),
    (cellBlock 0x5c ++ innerDigest, outerDigest),
    (cellBlock 0x36 ++ cellPayload "tools/other.py", innerDigest'),
    (cellBlock 0x5c ++ innerDigest', outerDigest')]

/-- A clean checkout whose commands succeed. -/
def cellHost : Host where
  crypto :=
    { Crypto.ofTable [] [] [] with
      sha256 := fun data => (cellDigests.lookup data).getD (bytesOf 32 0) }
  sovereignSecret := some cellSecret
  gitStatus := some []
  prints _ := true
  run _ := some 0

theorem digestSize_cellHost : DigestSize cellHost.crypto := by
  have hlen : ∀ n, (bytesOf 32 n).length = 32 := fun n => by
    rw [bytesOf, List.length_map, List.length_range]
  have hall : ∀ m ∈ cellDigests, m.2.length = 32 := by
    simp only [cellDigests, List.mem_cons, List.not_mem_nil, or_false]
    rintro m (rfl | rfl | rfl | rfl) <;> exact hlen _
  intro data
  simp only [cellHost]
  cases hl : cellDigests.lookup data with
  | none => exact hlen 0
  | some digest =>
    obtain ⟨ms, ms', heq, -⟩ := List.lookup_eq_some_iff.mp hl
    exact hall (data, digest) (by simp [heq])

theorem getSecret_cellHost : getSecret cellHost = .ok (utf8 cellSecret) := by
  have hencode : encode cellSecret = some (utf8 cellSecret) := encode_eq_some (by decide)
  simp [getSecret, cellHost, hencode]

theorem plain_cellPacket : ∀ script ∈ ["tools/boot.py", "tools/other.py"],
    (Value.obj (cellPacket script)).Plain := by
  intro script hscript
  have hkeys : ((cellPacket script).map Prod.fst).Nodup ∧
      ∀ k ∈ (cellPacket script).map Prod.fst, IsScalar k := by
    simp only [cellPacket, List.map_cons, List.map_nil]
    decide
  have hscalar : ∀ s ∈ [text "Cell Alpha", text "python3", text script], IsScalar s := by
    simp only [List.mem_cons, List.not_mem_nil, or_false] at hscript
    rcases hscript with rfl | rfl <;> decide
  refine .obj hkeys.1 (fun m hm => hkeys.2 _ (List.mem_map_of_mem hm)) fun m hm => ?_
  simp only [cellPacket, List.mem_cons, List.not_mem_nil, or_false] at hm
  rcases hm with rfl | rfl | rfl
  · exact .str (hscalar _ (by simp))
  · refine .arr fun v hv => ?_
    simp only [List.mem_cons, List.not_mem_nil, or_false] at hv
    rcases hv with rfl | rfl
    · exact .str (hscalar _ (by simp))
    · exact .str (hscalar _ (by simp))
  · exact .int 5

theorem not_signed_cellPacket (script : String) :
    text "signature" ∉ (cellPacket script).map Prod.fst := by
  simp only [cellPacket, List.map_cons, List.map_nil]
  decide

/-- The second packet with the signature of the first. -/
def forgedPacket : Members :=
  cellPacket "tools/other.py" ++ [(text "signature", .str (hexOf outerDigest))]

/-- Its file. -/
def forgedFile : Bytes := utf8 ((Value.obj forgedPacket).render .indented 0)

theorem unsigned_forgedPacket : unsigned forgedPacket = cellPacket "tools/other.py" := by
  rw [unsigned, forgedPacket, List.filter_append, List.filter_cons_of_neg (by simp),
    List.filter_nil, List.append_nil]
  exact unsigned_eq_self (not_signed_cellPacket _)

theorem printable_cellPacket (script : String) :
    (Value.obj (cellPacket script)).printable = true := by
  have hfive : (Value.int 5).printable = true := by decide +kernel
  refine printable_obj.mpr fun m hm => ?_
  simp only [cellPacket, List.mem_cons, List.not_mem_nil, or_false] at hm
  rcases hm with rfl | rfl | rfl
  · rfl
  · rfl
  · exact hfive

theorem load_forgedFile :
    ((some forgedFile).bind (readText false)).bind load = some (.obj forgedPacket) := by
  have hkey : IsScalar (text "signature") := by decide
  have hplain := plain_obj.mp (plain_cellPacket "tools/other.py" (by simp))
  have hnodup : (forgedPacket.map Prod.fst).Nodup := by
    simp only [forgedPacket, cellPacket, List.map_append, List.map_cons, List.map_nil]
    decide
  refine load_file (Value.Plain.loaded_iff (.obj hnodup ?_ ?_) |>.mpr (printable_obj.mpr ?_))
  · exact List.forall_mem_append.mpr ⟨hplain.2.1, List.forall_mem_singleton.mpr hkey⟩
  · exact List.forall_mem_append.mpr ⟨hplain.2.2,
      List.forall_mem_singleton.mpr (.str (isAscii_hexOf _).isScalar)⟩
  · exact List.forall_mem_append.mpr ⟨printable_obj.mp (printable_cellPacket _),
      List.forall_mem_singleton.mpr rfl⟩

/-- The two texts are different, and so are their signatures. -/
theorem signature_cellPacket :
    signature cellHost.crypto (utf8 cellSecret) (cellPacket "tools/boot.py") =
        some (hexOf outerDigest) ∧
      signature cellHost.crypto (utf8 cellSecret) (cellPacket "tools/other.py") =
        some (hexOf outerDigest') := by
  rw [signature_eq _ _ (printable_cellPacket _), signature_eq _ _ (printable_cellPacket _)]
  decide +kernel

theorem signaturesApart_cellPacket : SignaturesApart cellHost.crypto (utf8 cellSecret)
    (cellPacket "tools/boot.py") (cellPacket "tools/other.py") := by
  intro heq
  obtain ⟨hboot, hother⟩ := signature_cellPacket
  rw [signature_eq _ _ (printable_cellPacket _)] at hboot hother
  rw [heq, hother] at hboot
  exact absurd hboot (by decide)

theorem not_reordered_cellPacket : ¬Reordered (.obj (unsigned forgedPacket))
    (.obj (cellPacket "tools/boot.py")) := by
  intro h
  rw [unsigned_forgedPacket] at h
  have hsame : Same (.obj (cellPacket "tools/other.py")) (.obj (cellPacket "tools/boot.py")) :=
    (h.same (plain_cellPacket _ (by simp))).1
  have htexts : (Value.obj (cellPacket "tools/other.py")).sortKeys.render .spaced 0 =
      (Value.obj (cellPacket "tools/boot.py")).sortKeys.render .spaced 0 := by rw [hsame]
  exact absurd htexts (by decide)

theorem field_forgedPacket : field forgedPacket "signature" = .str (hexOf outerDigest) := by
  refine field_of_mem ?_ (List.mem_append_right _ (List.mem_singleton_self _))
  simp only [forgedPacket, cellPacket, List.map_append, List.map_cons, List.map_nil]
  decide

theorem mutation_packets_cell :
    (∃ file, packetFile cellHost.crypto (utf8 cellSecret) (cellPacket "tools/boot.py") = some file ∧
        verifyMutation cellHost (some file) = .ok (cellPacket "tools/boot.py")) ∧
      (∃ e, verifyMutation cellHost (some forgedFile) = .error e) ∧
        (cmdRun cellHost (some forgedFile)).1 = [.gitStatus] := by
  obtain ⟨hread, hrefuse⟩ := mutation_packets cellHost digestSize_cellHost getSecret_cellHost
    (plain_cellPacket "tools/boot.py" (by simp)) (printable_cellPacket _)
    (not_signed_cellPacket _)
  have hfree := unsigned_forgedPacket ▸ signaturesApart_cellPacket
  obtain ⟨hrefused, -⟩ := hrefuse (some forgedFile) forgedPacket _ load_forgedFile
    signature_cellPacket.1 field_forgedPacket hfree
  exact ⟨hread, hrefused not_reordered_cellPacket⟩

/-- An integer with one digit too many. -/
def longPacket : Members := [(text "n", .int (10 ^ maxStrDigits))]

/-- **A packet that has no text is not signed, and the checkout is looked at before any
file is read**, by a process of its own. -/
theorem long_packet_unsigned_and_git_started :
    (¬∀ (H : Host) (secret : Bytes) (packet : Members), DigestSize H.crypto →
        getSecret H = .ok secret → (Value.obj packet).Plain →
        text "signature" ∉ packet.map Prod.fst →
          ∃ file, packetFile H.crypto secret packet = some file ∧
            verifyMutation H (some file) = .ok packet) ∧
      ¬∀ (H : Host) (secret : Bytes) (packet data : Members) (sig : PyStr) (file : Option Bytes),
        DigestSize H.crypto → getSecret H = .ok secret → (Value.obj packet).Plain →
        (Value.obj packet).printable = true → text "signature" ∉ packet.map Prod.fst →
        (file.bind (readText false)).bind load = some (.obj data) →
        signature H.crypto secret packet = some sig → field data "signature" = .str sig →
        SignaturesApart H.crypto secret packet (unsigned data) →
        ¬Reordered (.obj (unsigned data)) (.obj packet) → (cmdRun H file).1 = [] := by
  constructor
  · intro h
    have hplain : (Value.obj longPacket).Plain := by
      refine .obj (by decide) (by decide) fun m hm => ?_
      rw [List.mem_singleton.mp hm]
      exact .int _
    have hno : text "signature" ∉ longPacket.map Prod.fst := by decide
    obtain ⟨file, hfile, -⟩ := h cellHost _ longPacket digestSize_cellHost getSecret_cellHost
      hplain hno
    have hlong : ¬(Value.obj longPacket).printable = true := by
      rw [printable_obj]
      intro hall
      simpa [Value.printable, Int.natAbs_pow] using hall _ (.head _)
    rw [packetFile, unsigned_eq_self hno, signature, Value.dumps,
      if_neg (mt (printable_sortKeys_iff _).mp hlong)] at hfile
    cases hfile
  · intro h
    have hstarted := h cellHost _ _ forgedPacket _ (some forgedFile) digestSize_cellHost
      getSecret_cellHost (plain_cellPacket "tools/boot.py" (by simp)) (printable_cellPacket _)
      (not_signed_cellPacket _) load_forgedFile signature_cellPacket.1 field_forgedPacket
      (unsigned_forgedPacket ▸ signaturesApart_cellPacket) not_reordered_cellPacket
    have hgit := gitStatus_mem_cmdRun cellHost (some forgedFile)
    rw [hstarted] at hgit
    cases hgit

end Runner
end SovereignSeed
