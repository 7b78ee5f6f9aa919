import SovereignSeed.Logger.Queue
import SovereignSeed.Python.JsonStrings

/-!
# The evidence record

`sip_write_evidence_object` of `sip_evidence.c` prints a record by a template of `fprintf`,
one member on each line, without escapes.  It does not look at `execution_status`: the last
line says `VERIFIED_PASS` whatever happened.

`gmtime` is taken to succeed, so that the clock enters as its broken-down time.

## Main definitions

* `Tm`, `strftime` — the time, and its text.
* `SipEvidenceRecord`, `sipWriteEvidenceObject` — the record and the function.
* `Shows`, `Recovered`, `Faithful` — what a reader of JSON gets back.
* `mainRecord` — the record `main` writes.

## Main results

* `recovered_iff` — **a record is recovered exactly if its strings are plain text and the
  execution did not fail.**
* `evidence_faithful_iff` — and so are two of them.
* `recovered_mainRecord_iff` — `main` depends on the name of its interface.
-/

namespace SovereignSeed
namespace Xdp

open Python Python.Json
open Logger (CString)

/-! ### The clock -/

/-- `struct tm`, as `gmtime` fills it. -/
structure Tm where
  tmYear : ℤ
  tmMon : ℕ
  tmMday : ℕ
  tmHour : ℕ
  tmMin : ℕ
  tmSec : ℕ
  tmMon_lt : tmMon < 12
  tmMday_le : tmMday ≤ 31
  tmHour_lt : tmHour < 24
  tmMin_lt : tmMin < 60
  tmSec_le : tmSec ≤ 60

/-- A number below 100 in two digits. -/
def twoDigits (n : ℕ) : PyStr := [digit (n / 10), digit (n % 10)]

/-- `strftime` with `"%Y-%m-%dT%H:%M:%SZ"`; the buffer is long enough for any year. -/
def strftime (tm : Tm) : PyStr :=
  decimalInt (tm.tmYear + 1900) ++ text "-" ++ twoDigits (tm.tmMon + 1) ++ text "-" ++
    twoDigits tm.tmMday ++ text "T" ++ twoDigits tm.tmHour ++ text ":" ++ twoDigits tm.tmMin ++
      text ":" ++ twoDigits tm.tmSec ++ text "Z"

theorem isDigit_of_mem_twoDigits {n : ℕ} (h : n < 100) {c : CodePoint} (hc : c ∈ twoDigits n) :
    isDigit c = true := by
  simp only [twoDigits, List.mem_cons, List.not_mem_nil, or_false] at hc
  rcases hc with rfl | rfl
  · exact isDigit_digit (by omega)
  · exact isDigit_digit (by omega)

theorem mem_strftime {tm : Tm} {c : CodePoint} (h : c ∈ strftime tm) :
    isDigit c = true ∨ c ∈ text "-T:Z" := by
  have hyear : ∀ n : ℤ, c ∈ decimalInt n → isDigit c = true ∨ c ∈ text "-T:Z" := by
    intro n hn
    unfold decimalInt at hn
    split at hn
    · rcases List.mem_append.mp hn with hn | hn
      · exact .inr (List.mem_of_mem_take (i := 1) hn)
      · exact .inl (isDigit_of_mem_decimal hn)
    · exact .inl (isDigit_of_mem_decimal hn)
  have hmark : ∀ m ∈ ["-", "T", ":", "Z"], c ∈ text m → c ∈ text "-T:Z" := by
    intro m hm hc
    have hall : (["-", "T", ":", "Z"].all fun m => (text m).all (· ∈ text "-T:Z")) = true := by
      decide
    simpa using List.all_eq_true.mp (List.all_eq_true.mp hall m hm) c hc
  have hmon := tm.tmMon_lt
  have hmday := tm.tmMday_le
  have hhour := tm.tmHour_lt
  have hmin := tm.tmMin_lt
  have hsec := tm.tmSec_le
  simp only [strftime, List.mem_append] at h
  rcases h with (((((((((((h | h) | h) | h) | h) | h) | h) | h) | h) | h) | h) | h)
  · exact hyear _ h
  · exact .inr (hmark _ (by simp) h)
  · exact .inl (isDigit_of_mem_twoDigits (by omega) h)
  · exact .inr (hmark _ (by simp) h)
  · exact .inl (isDigit_of_mem_twoDigits (by omega) h)
  · exact .inr (hmark _ (by simp) h)
  · exact .inl (isDigit_of_mem_twoDigits (by omega) h)
  · exact .inr (hmark _ (by simp) h)
  · exact .inl (isDigit_of_mem_twoDigits (by omega) h)
  · exact .inr (hmark _ (by simp) h)
  · exact .inl (isDigit_of_mem_twoDigits (by omega) h)
  · exact .inr (hmark _ (by simp) h)

/-- The time needs no escapes. -/
theorem plain_strftime (tm : Tm) : IsPlain (strftime tm) ∧ IsScalar (strftime tm) := by
  have hmarks : (text "-T:Z").all fun c => decide (c ≠ 0x22 ∧ c ≠ 0x5c ∧ 0x20 ≤ c.val) &&
      decide (c.val < 0x80) := by decide
  have hchar : ∀ c ∈ strftime tm, (c ≠ 0x22 ∧ c ≠ 0x5c ∧ 0x20 ≤ c.val) ∧ c.val < 0x80 := by
    intro c hc
    rcases mem_strftime hc with hdigit | hmark
    · simp only [isDigit, Bool.and_eq_true, decide_eq_true_eq] at hdigit
      refine ⟨⟨?_, ?_, by omega⟩, by omega⟩ <;> rintro rfl
      · exact absurd hdigit.1 (by decide)
      · exact absurd hdigit.2 (by decide)
    · simpa using List.all_eq_true.mp hmarks c hmark
  exact ⟨fun c hc => (hchar c hc).1, IsAscii.isScalar fun c hc => (hchar c hc).2⟩

/-! ### The function -/

/-- `sip_evidence_record_t`. -/
structure SipEvidenceRecord where
  framework : CString
  evidenceClass : CString
  registryId : CString
  interfaceName : CString
  queueId : UInt32
  totalPackets : UInt64
  totalBytes : UInt64
  executionStatus : Int32

/-- The octets of a piece of the format. -/
def octets (s : String) : Bytes := utf8 (text s)

/-- What the `fprintf` calls put into the file. -/
def evidenceBlock (record : SipEvidenceRecord) (now : Tm) : Bytes :=
  octets "\x7b\n" ++
  (octets "  \"framework\": \"" ++ record.framework.bytes ++ octets "\",\n") ++
  (octets "  \"evidence_class\": \"" ++ record.evidenceClass.bytes ++ octets "\",\n") ++
  (octets "  \"registry_id\": \"" ++ record.registryId.bytes ++ octets "\",\n") ++
  (octets "  \"timestamp_utc\": \"" ++ utf8 (strftime now) ++ octets "\",\n") ++
  (octets "  \"target_interface\": \"" ++ record.interfaceName.bytes ++ octets "\",\n") ++
  (octets "  \"queue_id\": " ++ utf8 (decimal record.queueId.toNat) ++ octets ",\n") ++
  octets "  \"metrics\": \x7b\n" ++
  (octets "    \"total_packets_processed\": " ++ utf8 (decimal record.totalPackets.toNat) ++
    octets ",\n") ++
  (octets "    \"total_bytes_ingested\": " ++ utf8 (decimal record.totalBytes.toNat) ++
    octets "\n") ++
  octets "  \x7d,\n" ++
  octets "  \"verification_state\": \"VERIFIED_PASS\"\n" ++
  octets "\x7d\n"

/-- `sip_write_evidence_object`: what it returns, and what the file holds if it was opened.
`opened` is whether `fopen` succeeds; a null pointer is `none`. -/
def sipWriteEvidenceObject (record : Option SipEvidenceRecord) (filepath : Option CString)
    (opened : Bool) (now : Tm) : ℤ × Option Bytes :=
  match record, filepath with
  | some record, some _ =>
    if opened = false then (-1, none) else (0, some (evidenceBlock record now))
  | _, _ => (-1, none)

/-- The record that `main` writes on shutdown. -/
def mainRecord (ifname : CString) (queueId : UInt32) : SipEvidenceRecord where
  framework := ⟨octets "Space LEAF / Alexandria V-SLOA", by decide⟩
  evidenceClass := ⟨octets "E1/E3 - Implemented & Machine-Generated", by decide⟩
  registryId := ⟨octets "V-SLOA-VERTICAL-001", by decide⟩
  interfaceName := ifname
  queueId := queueId
  totalPackets := 0
  totalBytes := 0
  executionStatus := 0

/-! ### What a reader gets back -/

/-- A string of the record is text, and `v` is that text. -/
def IsText (v : Value) (s : CString) : Prop := ∃ t, v = .str t ∧ encode t = some s.bytes

/-- The `dict` of a document shows the record. -/
structure Shows (d : Members) (record : SipEvidenceRecord) : Prop where
  framework : IsText (field d "framework") record.framework
  evidenceClass : IsText (field d "evidence_class") record.evidenceClass
  registryId : IsText (field d "registry_id") record.registryId
  interfaceName : IsText (field d "target_interface") record.interfaceName
  queueId : field d "queue_id" = .int record.queueId.toNat
  metrics : ∃ m, field d "metrics" = .obj m ∧
    field m "total_packets_processed" = .int record.totalPackets.toNat ∧
    field m "total_bytes_ingested" = .int record.totalBytes.toNat
  /-- A failed execution is not a passed one. -/
  verificationState : field d "verification_state" = .str (text "VERIFIED_PASS") ↔
    record.executionStatus = 0

/-- The octets are a JSON document that shows the record. -/
def Recovered (data : Bytes) (record : SipEvidenceRecord) : Prop :=
  ∃ d, loadBytes data = some (.obj d) ∧ Shows d record

/-- Records that differ in something a document is to show. -/
def Differ (r r' : SipEvidenceRecord) : Prop :=
  r.framework ≠ r'.framework ∨ r.evidenceClass ≠ r'.evidenceClass ∨
    r.registryId ≠ r'.registryId ∨ r.interfaceName ≠ r'.interfaceName ∨ r.queueId ≠ r'.queueId ∨
      r.totalPackets ≠ r'.totalPackets ∨ r.totalBytes ≠ r'.totalBytes ∨
        ¬(r.executionStatus = 0 ↔ r'.executionStatus = 0)

/-- Two records are written as documents that show them, and that differ where they do. -/
def Faithful (r r' : SipEvidenceRecord) (filepath filepath' : CString) (now : Tm) : Prop :=
  ∃ data data', sipWriteEvidenceObject (some r) (some filepath) true now = (0, some data) ∧
    sipWriteEvidenceObject (some r') (some filepath') true now = (0, some data') ∧
      Recovered data r ∧ Recovered data' r' ∧ (Differ r r' → data ≠ data')

/-- A string is text without quotation marks, backslashes and control characters. -/
def PlainString (s : CString) : Prop := ∃ t, encode t = some s.bytes ∧ IsPlain t

/-- The strings of the record need no escapes. -/
structure PlainStrings (record : SipEvidenceRecord) : Prop where
  framework : PlainString record.framework
  evidenceClass : PlainString record.evidenceClass
  registryId : PlainString record.registryId
  interfaceName : PlainString record.interfaceName

/-! ### The document as a text -/

/-- The values of a document whose strings are text. -/
structure Texts where
  framework : PyStr
  evidenceClass : PyStr
  registryId : PyStr
  interfaceName : PyStr
  time : PyStr
  queueId : ℕ
  totalPackets : ℕ
  totalBytes : ℕ

namespace Texts

/-- The totals, with the texts of their values. -/
def totals (T : Texts) : List (PyStr × PyStr × Value) :=
  [(text "total_packets_processed", decimalInt T.totalPackets, .int T.totalPackets),
    (text "total_bytes_ingested", decimalInt T.totalBytes, .int T.totalBytes)]

/-- The members under `metrics`. -/
def metrics (T : Texts) : Members := T.totals.map fun x => (x.1, x.2.2)

/-- The text of the metrics. -/
def metricsText (T : Texts) : PyStr :=
  bracket .indented 1 0x7b 0x7d (T.totals.map fun x => rawMember (x.1, x.2.1))

/-- The members of the document, with the texts of their values. -/
def entries (T : Texts) : List (PyStr × PyStr × Value) :=
  [(text "framework", rawString T.framework, .str T.framework),
    (text "evidence_class", rawString T.evidenceClass, .str T.evidenceClass),
    (text "registry_id", rawString T.registryId, .str T.registryId),
    (text "timestamp_utc", rawString T.time, .str T.time),
    (text "target_interface", rawString T.interfaceName, .str T.interfaceName),
    (text "queue_id", decimalInt T.queueId, .int T.queueId),
    (text "metrics", T.metricsText, .obj T.metrics),
    (text "verification_state", rawString (text "VERIFIED_PASS"), .str (text "VERIFIED_PASS"))]

/-- The members of the document. -/
def members (T : Texts) : Members := T.entries.map fun x => (x.1, x.2.2)

/-- The text of the document. -/
def blockText (T : Texts) : PyStr :=
  bracket .indented 0 0x7b 0x7d (T.entries.map fun x => rawMember (x.1, x.2.1)) ++ [0x0a]

/-- The strings and the time are Unicode. -/
structure Scalar (T : Texts) : Prop where
  framework : IsScalar T.framework
  evidenceClass : IsScalar T.evidenceClass
  registryId : IsScalar T.registryId
  interfaceName : IsScalar T.interfaceName
  time : IsScalar T.time

/-- The strings and the time need no escapes. -/
structure Plain (T : Texts) : Prop where
  framework : IsPlain T.framework
  evidenceClass : IsPlain T.evidenceClass
  registryId : IsPlain T.registryId
  interfaceName : IsPlain T.interfaceName
  time : IsPlain T.time

theorem decimalInt_natCast (n : ℕ) : decimalInt (n : ℤ) = decimal n := by
  rw [decimalInt, if_neg (by omega), Int.natAbs_natCast]

/-- The document, line by line. -/
theorem blockText_eq (T : Texts) : T.blockText =
    text "\x7b\n" ++ (text "  \"framework\": \"" ++ T.framework ++ text "\",\n") ++
    (text "  \"evidence_class\": \"" ++ T.evidenceClass ++ text "\",\n") ++
    (text "  \"registry_id\": \"" ++ T.registryId ++ text "\",\n") ++
    (text "  \"timestamp_utc\": \"" ++ T.time ++ text "\",\n") ++
    (text "  \"target_interface\": \"" ++ T.interfaceName ++ text "\",\n") ++
    (text "  \"queue_id\": " ++ decimal T.queueId ++ text ",\n") ++ text "  \"metrics\": \x7b\n" ++
    (text "    \"total_packets_processed\": " ++ decimal T.totalPackets ++ text ",\n") ++
    (text "    \"total_bytes_ingested\": " ++ decimal T.totalBytes ++ text "\n") ++
    text "  \x7d,\n" ++ text "  \"verification_state\": \"VERIFIED_PASS\"\n" ++ text "\x7d\n" := by
  -- the pieces of the format
  have hopen : text "\x7b\n" = [0x7b, 0x0a] := by decide
  have hend : text "\",\n" = [0x22, 0x2c, 0x0a] := by decide
  have hframework : text "  \"framework\": \"" =
      0x20 :: 0x20 :: (rawString (text "framework") ++ [0x3a, 0x20, 0x22]) := by decide
  have hclass : text "  \"evidence_class\": \"" =
      0x20 :: 0x20 :: (rawString (text "evidence_class") ++ [0x3a, 0x20, 0x22]) := by decide
  have hregistry : text "  \"registry_id\": \"" =
      0x20 :: 0x20 :: (rawString (text "registry_id") ++ [0x3a, 0x20, 0x22]) := by decide
  have htime : text "  \"timestamp_utc\": \"" =
      0x20 :: 0x20 :: (rawString (text "timestamp_utc") ++ [0x3a, 0x20, 0x22]) := by decide
  have hinterface : text "  \"target_interface\": \"" =
      0x20 :: 0x20 :: (rawString (text "target_interface") ++ [0x3a, 0x20, 0x22]) := by decide
  have hqueue : text "  \"queue_id\": " =
      0x20 :: 0x20 :: (rawString (text "queue_id") ++ [0x3a, 0x20]) := by decide
  have hcomma : text ",\n" = [0x2c, 0x0a] := by decide
  have hmetrics : text "  \"metrics\": \x7b\n" =
      0x20 :: 0x20 :: (rawString (text "metrics") ++ [0x3a, 0x20, 0x7b, 0x0a]) := by decide
  have hpackets : text "    \"total_packets_processed\": " =
      0x20 :: 0x20 :: 0x20 :: 0x20 ::
        (rawString (text "total_packets_processed") ++ [0x3a, 0x20]) := by decide
  have hbytes : text "    \"total_bytes_ingested\": " =
      0x20 :: 0x20 :: 0x20 :: 0x20 :: (rawString (text "total_bytes_ingested") ++ [0x3a, 0x20]) := by decide
  have hline : text "\n" = [0x0a] := by decide
  have hclose : text "  \x7d,\n" = [0x20, 0x20, 0x7d, 0x2c, 0x0a] := by decide
  have hstate : text "  \"verification_state\": \"VERIFIED_PASS\"\n" =
      0x20 :: 0x20 :: (rawString (text "verification_state") ++
        0x3a :: 0x20 :: (rawString (text "VERIFIED_PASS") ++ [0x0a])) := by decide
  have hlast : text "\x7d\n" = [0x7d, 0x0a] := by decide
  rw [hopen, hend, hframework, hclass, hregistry, htime, hinterface, hqueue, hcomma, hmetrics,
    hpackets, hbytes, hline, hclose, hstate, hlast]
  simp [blockText, entries, metricsText, totals, bracket, tailText, rawMember, rawString,
    decimalInt_natCast, Style.indented, newline, List.replicate]

/-! ### Reading it -/

section Reading

variable {T : Texts}

/-- The characters of numbers and of the template are printable. -/
theorem isScalar_blockText (h : T.Scalar) : IsScalar T.blockText := by
  have hdecimal : ∀ n : ℕ, IsScalar (decimal n) := fun n =>
    IsAscii.isScalar fun c hc => ascii_of_isPrint (isPrint_of_isDigit (isDigit_of_mem_decimal hc))
  rw [blockText_eq]
  simp only [isScalar_append, hdecimal, h.framework, h.evidenceClass, h.registryId,
    h.interfaceName, h.time, and_true]
  decide

/-- The numbers of the record are not too long. -/
structure Short (T : Texts) : Prop where
  queueId : T.queueId < 10 ^ maxStrDigits
  totalPackets : T.totalPackets < 10 ^ maxStrDigits
  totalBytes : T.totalBytes < 10 ^ maxStrDigits

theorem reads_int {n : ℕ} (h : n < 10 ^ maxStrDigits) (k : ℕ) :
    Reads (readValue (k + 1)) (decimalInt n) (.int n) ∧ Starts (decimalInt n) :=
  ⟨reads_rawText (v := .int n) h k, (numeral_decimalInt n).isAtomic.starts⟩

theorem reads_str {s : PyStr} (hplain : IsPlain s) (hscalar : IsScalar s) (k : ℕ) :
    Reads (readValue (k + 1)) (rawString s) (.str s) ∧ Starts (rawString s) :=
  ⟨reads_rawText (v := .str s) ⟨hplain, hscalar⟩ k, 0x22, _, rfl, by decide, by decide, by decide⟩

/-- A row of members at any depth is read back. -/
theorem reads_object {d n : ℕ} {xs : List (PyStr × PyStr × Value)}
    (hkeys : ∀ x ∈ xs, IsPlain x.1 ∧ IsScalar x.1)
    (h : ∀ x ∈ xs, Reads (readValue n) x.2.1 x.2.2 ∧ Starts x.2.1) (r : PyStr) :
    readValue (n + 1) (bracket .indented d 0x7b 0x7d (xs.map fun x => rawMember (x.1, x.2.1)) ++ r)
      = some (.obj (xs.map fun x => (x.1, x.2.2)), r) := by
  have hbody := readBracket_bracket (L := .indented) (d := d) (.inr rfl) 0x7b
    (fun x hx => reads_rawEntry (hkeys x hx).1 (hkeys x hx).2 (h x hx).1 (h x hx).2)
    (fun x _ => starts_rawMember _) r
  rw [bracket_eq_cons, List.cons_append, readValue, if_neg (by decide), if_pos rfl, hbody,
    Option.map_some]

theorem keys_entries : ∀ k ∈ T.entries.map Prod.fst, IsPlain k ∧ IsScalar k := by
  have hkeys : ∀ k ∈ [text "framework", text "evidence_class", text "registry_id",
      text "timestamp_utc", text "target_interface", text "queue_id", text "metrics",
      text "verification_state"], IsPlain k ∧ IsScalar k := by decide
  exact hkeys

theorem keys_totals : ∀ k ∈ T.totals.map Prod.fst, IsPlain k ∧ IsScalar k := by
  have hkeys : ∀ k ∈ [text "total_packets_processed", text "total_bytes_ingested"],
      IsPlain k ∧ IsScalar k := by decide
  exact hkeys

theorem nodup_members : (T.members.map Prod.fst).Nodup := by
  change [text "framework", text "evidence_class", text "registry_id", text "timestamp_utc",
    text "target_interface", text "queue_id", text "metrics", text "verification_state"].Nodup
  decide

theorem nodup_metrics : (T.metrics.map Prod.fst).Nodup := by
  change [text "total_packets_processed", text "total_bytes_ingested"].Nodup
  decide

theorem reads_metrics (h : T.Short) (n : ℕ) (r : PyStr) :
    readValue (n + 2) (T.metricsText ++ r) = some (.obj T.metrics, r) := by
  refine reads_object (fun x hx => keys_totals _ (List.mem_map_of_mem hx)) (fun x hx => ?_) r
  simp only [totals, List.mem_cons, List.not_mem_nil, or_false] at hx
  rcases hx with rfl | rfl
  · exact reads_int h.totalPackets n
  · exact reads_int h.totalBytes n

/-- **The document of plain strings is parsed.** -/
theorem parse_blockText (h : T.Scalar) (hplain : T.Plain) (hshort : T.Short) :
    parse T.blockText = some (.obj T.members) := by
  have hpass : IsPlain (text "VERIFIED_PASS") ∧ IsScalar (text "VERIFIED_PASS") := by decide
  obtain ⟨n, hn⟩ : ∃ n, T.blockText.length = n + 2 := by
    refine ⟨T.blockText.length - 2, ?_⟩
    rw [blockText, bracket_eq_cons, List.cons_append, List.length_cons, List.length_append,
      List.length_singleton]
    omega
  have hread : readValue (n + 3) T.blockText = some (.obj T.members, [0x0a]) := by
    refine reads_object (fun x hx => keys_entries _ (List.mem_map_of_mem hx)) (fun x hx => ?_) _
    simp only [entries, List.mem_cons, List.not_mem_nil, or_false] at hx
    rcases hx with rfl | rfl | rfl | rfl | rfl | rfl | rfl | rfl
    · exact reads_str hplain.framework h.framework _
    · exact reads_str hplain.evidenceClass h.evidenceClass _
    · exact reads_str hplain.registryId h.registryId _
    · exact reads_str hplain.time h.time _
    · exact reads_str hplain.interfaceName h.interfaceName _
    · exact reads_int hshort.queueId _
    · exact ⟨fun r _ => reads_metrics hshort n r, 0x7b, _, rfl, by decide, by decide, by decide⟩
    · exact reads_str hpass.1 hpass.2 _
  have hskip : skipWs T.blockText = T.blockText := by
    rw [blockText, bracket_eq_cons, List.cons_append, skipWs_cons (by decide)]
  rw [parse, hskip, hn, hread]
  rfl

/-- Members with keys of their own are a `dict`. -/
theorem load_blockText (h : T.Scalar) (hplain : T.Plain) (hshort : T.Short) :
    load T.blockText = some (.obj T.members) := by
  have hmetrics : ∀ m ∈ T.metrics, m.2.dict = m.2 := by
    intro m hm
    simp only [metrics, totals, List.map_cons, List.map_nil, List.mem_cons, List.not_mem_nil,
      or_false] at hm
    rcases hm with rfl | rfl <;> rfl
  have hvalues : ∀ m ∈ T.members, m.2.dict = m.2 := by
    intro m hm
    simp only [members, entries, List.map_cons, List.map_nil, List.mem_cons, List.not_mem_nil,
      or_false] at hm
    rcases hm with rfl | rfl | rfl | rfl | rfl | rfl | rfl | rfl
    case inr.inr.inr.inr.inr.inr.inl => exact dict_obj_eq_self nodup_metrics hmetrics
    all_goals rfl
  rw [load, parse_blockText h hplain hshort, Option.map_some,
    dict_obj_eq_self nodup_members hvalues]

/-! ### What the strings of the document are -/

/-- The strings of the record. -/
def strings (T : Texts) : List PyStr :=
  [T.framework, T.evidenceClass, T.registryId, T.interfaceName]

/-- Plain, or shorter than a string of the record that is not. -/
def Covered (T : Texts) (t : PyStr) : Prop :=
  IsPlain t ∨ ∃ s ∈ T.strings, ¬IsPlain s ∧ t.length < s.length

theorem gives_string {s : PyStr} (hs : s ∈ T.strings) (hscalar : IsScalar s) :
    Gives T.Covered (rawString s) := by
  by_cases hplain : IsPlain s
  · exact gives_plain hplain hscalar (.inl hplain)
  · exact gives_raw hplain fun t ht => .inr ⟨s, hs, hplain, ht⟩

theorem gives_int (n : ℕ) : Gives T.Covered (decimalInt n) := by
  refine gives_of_noMarks fun c hc => ?_
  rw [decimalInt_natCast] at hc
  rintro rfl
  exact absurd (isDigit_of_mem_decimal hc) (by decide)

theorem gives_object {d : ℕ} {xs : List (PyStr × PyStr × Value)}
    (hkeys : ∀ x ∈ xs, IsPlain x.1 ∧ IsScalar x.1) (h : ∀ x ∈ xs, Gives T.Covered x.2.1) :
    Gives T.Covered (bracket .indented d 0x7b 0x7d (xs.map fun x => rawMember (x.1, x.2.1))) := by
  refine gives_bracket (by decide) (by decide) fun u hu => ?_
  obtain ⟨x, hx, rfl⟩ := List.mem_map.mp hu
  exact gives_rawMember (hkeys x hx).1 (hkeys x hx).2 (.inl (hkeys x hx).1) (h x hx)

/-- **The strings of the document are plain, or shorter than one that is not.** -/
theorem covered_of_mem (h : T.Scalar) (htime : IsPlain T.time) {t : PyStr}
    (ht : t ∈ Json.strings T.blockText) : T.Covered t := by
  have hpass : IsPlain (text "VERIFIED_PASS") ∧ IsScalar (text "VERIFIED_PASS") := by decide
  have hmetrics : Gives T.Covered T.metricsText := by
    refine gives_object (fun x hx => keys_totals _ (List.mem_map_of_mem hx)) fun x hx => ?_
    simp only [totals, List.mem_cons, List.not_mem_nil, or_false] at hx
    rcases hx with rfl | rfl
    · exact gives_int _
    · exact gives_int _
  have hblock : Gives T.Covered
      (bracket .indented 0 0x7b 0x7d (T.entries.map fun x => rawMember (x.1, x.2.1))) := by
    refine gives_object (fun x hx => keys_entries _ (List.mem_map_of_mem hx)) fun x hx => ?_
    simp only [entries, List.mem_cons, List.not_mem_nil, or_false] at hx
    rcases hx with rfl | rfl | rfl | rfl | rfl | rfl | rfl | rfl
    · exact gives_string (by simp [strings]) h.framework
    · exact gives_string (by simp [strings]) h.evidenceClass
    · exact gives_string (by simp [strings]) h.registryId
    · exact gives_plain htime h.time (.inl htime)
    · exact gives_string (by simp [strings]) h.interfaceName
    · exact gives_int _
    · exact hmetrics
    · exact gives_plain hpass.1 hpass.2 (.inl hpass.1)
  refine (hblock [] [] t endsLine_nil ht).resolve_right fun hnil => ?_
  rw [strings_nil] at hnil
  cases hnil

/-- **Strings that are all read back were plain.** -/
theorem plain_of_load (h : T.Scalar) (htime : IsPlain T.time) {d : Members}
    (hload : load T.blockText = some (.obj d))
    (hread : ∀ s ∈ T.strings, ∃ k, field d k = .str s) : T.Plain := by
  have hkeys := nodup_of_load hload
  obtain ⟨ms, hparse, rfl⟩ := exists_parse_of_load hload
  have hplain : ∀ s ∈ T.strings, IsPlain s := by
    refine plain_of_shorter fun s hs => ?_
    obtain ⟨k, hk⟩ := hread s hs
    have hmem := mem_of_mem_dict (m := (text k, .str s)) nofun nofun (mem_of_field hkeys hk)
    exact covered_of_mem h htime (direct_mem_strings hparse hmem)
  exact {
    framework := hplain _ (by simp [strings])
    evidenceClass := hplain _ (by simp [strings])
    registryId := hplain _ (by simp [strings])
    interfaceName := hplain _ (by simp [strings])
    time := htime }

end Reading

end Texts

/-! ### What is recovered -/

/-- The values that the document of a record has, if its strings are text. -/
structure IsTexts (T : Texts) (record : SipEvidenceRecord) (now : Tm) : Prop where
  framework : encode T.framework = some record.framework.bytes
  evidenceClass : encode T.evidenceClass = some record.evidenceClass.bytes
  registryId : encode T.registryId = some record.registryId.bytes
  interfaceName : encode T.interfaceName = some record.interfaceName.bytes
  time : T.time = strftime now
  queueId : T.queueId = record.queueId.toNat
  totalPackets : T.totalPackets = record.totalPackets.toNat
  totalBytes : T.totalBytes = record.totalBytes.toNat

theorem of_encode {t : PyStr} {b : Bytes} (h : encode t = some b) : IsScalar t ∧ b = utf8 t := by
  unfold encode at h
  split at h
  · cases h
  next hany =>
  cases h
  exact ⟨by simpa [IsScalar] using hany, rfl⟩

section Records

variable {T : Texts} {record : SipEvidenceRecord} {now : Tm}

theorem IsTexts.scalar (h : IsTexts T record now) : T.Scalar where
  framework := (of_encode h.framework).1
  evidenceClass := (of_encode h.evidenceClass).1
  registryId := (of_encode h.registryId).1
  interfaceName := (of_encode h.interfaceName).1
  time := by
    rw [h.time]
    exact (plain_strftime now).2

theorem IsTexts.plain_time (h : IsTexts T record now) : IsPlain T.time := by
  rw [h.time]
  exact (plain_strftime now).1

/-- Numbers of 64 bits have at most 20 digits. -/
theorem IsTexts.short (h : IsTexts T record now) : T.Short := by
  have hpow := pow_twenty_le
  have hqueueId := record.queueId.toNat_lt
  have htotalPackets := record.totalPackets.toNat_lt
  have htotalBytes := record.totalBytes.toNat_lt
  constructor
  · rw [h.queueId]
    omega
  · rw [h.totalPackets]
    omega
  · rw [h.totalBytes]
    omega

/-- **The octets of the document are those of its text.** -/
theorem IsTexts.evidenceBlock_eq (h : IsTexts T record now) :
    evidenceBlock record now = utf8 T.blockText := by
  rw [evidenceBlock, Texts.blockText_eq, (of_encode h.framework).2, (of_encode h.evidenceClass).2,
    (of_encode h.registryId).2, (of_encode h.interfaceName).2, h.time, h.queueId, h.totalPackets,
    h.totalBytes]
  simp only [octets, utf8_append]

theorem IsTexts.loadBytes_evidenceBlock (h : IsTexts T record now) :
    loadBytes (evidenceBlock record now) = load T.blockText := by
  rw [h.evidenceBlock_eq, loadBytes_utf8 (Texts.isScalar_blockText h.scalar)]

/-- What the `dict` of a document of plain strings has. -/
theorem Texts.field_members {k : String} {v : Value} (hmem : (text k, v) ∈ T.members) :
    field T.members k = v :=
  field_of_mem nodup_members hmem

/-- The last line is always the same. -/
theorem Texts.field_verificationState (T : Texts) :
    field T.members "verification_state" = .str (text "VERIFIED_PASS") :=
  field_members (by simp [members, entries])

theorem Texts.field_metrics (T : Texts) : field T.members "metrics" = .obj T.metrics :=
  field_members (by simp [members, entries])

/-- The members show the record, if its execution did not fail. -/
theorem IsTexts.shows (h : IsTexts T record now) (hstatus : record.executionStatus = 0) :
    Shows T.members record where
  framework := ⟨_, Texts.field_members (by simp [Texts.members, Texts.entries]), h.framework⟩
  evidenceClass :=
    ⟨_, Texts.field_members (by simp [Texts.members, Texts.entries]), h.evidenceClass⟩
  registryId := ⟨_, Texts.field_members (by simp [Texts.members, Texts.entries]), h.registryId⟩
  interfaceName :=
    ⟨_, Texts.field_members (by simp [Texts.members, Texts.entries]), h.interfaceName⟩
  queueId := by
    rw [← h.queueId]
    exact Texts.field_members (by simp [Texts.members, Texts.entries])
  metrics := by
    have hkeys : (T.metrics.map Prod.fst).Nodup := Texts.nodup_metrics
    refine ⟨_, T.field_metrics, ?_, ?_⟩
    · rw [← h.totalPackets]
      exact field_of_mem hkeys (by simp [Texts.metrics, Texts.totals])
    · rw [← h.totalBytes]
      exact field_of_mem hkeys (by simp [Texts.metrics, Texts.totals])
  verificationState := iff_of_true T.field_verificationState hstatus

/-- The values of a record, given the texts of its strings. -/
def textsOf (record : SipEvidenceRecord) (now : Tm) (f c r i : PyStr) : Texts :=
  ⟨f, c, r, i, strftime now, record.queueId.toNat, record.totalPackets.toNat,
    record.totalBytes.toNat⟩

/-- **A record is recovered exactly if its strings are plain text and the execution did not
fail.** -/
theorem recovered_iff (record : SipEvidenceRecord) (now : Tm) :
    Recovered (evidenceBlock record now) record ↔
      PlainStrings record ∧ record.executionStatus = 0 := by
  constructor
  · rintro ⟨d, hload, hshows⟩
    obtain ⟨f, hf, hf'⟩ := hshows.framework
    obtain ⟨c, hc, hc'⟩ := hshows.evidenceClass
    obtain ⟨r, hr, hr'⟩ := hshows.registryId
    obtain ⟨i, hi, hi'⟩ := hshows.interfaceName
    have htexts : IsTexts (textsOf record now f c r i) record now :=
      ⟨hf', hc', hr', hi', rfl, rfl, rfl, rfl⟩
    rw [htexts.loadBytes_evidenceBlock] at hload
    have hplain := Texts.plain_of_load htexts.scalar htexts.plain_time hload fun s hs => by
      simp only [Texts.strings, List.mem_cons, List.not_mem_nil, or_false] at hs
      rcases hs with rfl | rfl | rfl | rfl
      · exact ⟨_, hf⟩
      · exact ⟨_, hc⟩
      · exact ⟨_, hr⟩
      · exact ⟨_, hi⟩
    refine ⟨⟨⟨f, hf', hplain.framework⟩, ⟨c, hc', hplain.evidenceClass⟩,
      ⟨r, hr', hplain.registryId⟩, ⟨i, hi', hplain.interfaceName⟩⟩, ?_⟩
    -- with plain strings the last line is read, which says that all went well
    rw [Texts.load_blockText htexts.scalar hplain htexts.short] at hload
    obtain rfl := Value.obj.inj (Option.some.inj hload)
    exact hshows.verificationState.mp (Texts.field_verificationState _)
  · rintro ⟨⟨⟨f, hf, hf'⟩, ⟨c, hc, hc'⟩, ⟨r, hr, hr'⟩, i, hi, hi'⟩, hstatus⟩
    have htexts : IsTexts (textsOf record now f c r i) record now :=
      ⟨hf, hc, hr, hi, rfl, rfl, rfl, rfl⟩
    have hplain := Texts.Plain.mk hf' hc' hr' hi' htexts.plain_time
    refine ⟨_, ?_, htexts.shows hstatus⟩
    rw [htexts.loadBytes_evidenceBlock]
    exact Texts.load_blockText htexts.scalar hplain htexts.short

/-- A `dict` shows records that do not differ. -/
theorem not_differ_of_shows {d : Members} {r r' : SipEvidenceRecord} (h : Shows d r)
    (h' : Shows d r') : ¬Differ r r' := by
  have hstring : ∀ {v : Value} {s s' : CString}, IsText v s → IsText v s' → s = s' := by
    rintro v ⟨b, hb⟩ ⟨b', hb'⟩ ⟨t, rfl, ht⟩ ⟨t', heq, ht'⟩
    obtain rfl := Value.str.inj heq
    obtain rfl : b = b' := Option.some.inj (ht.symm.trans ht')
    rfl
  have hint : ∀ {v : Value} {m n : ℕ}, v = .int m → v = .int n → m = n := by
    intro v m n hm hn
    exact Int.ofNat.inj (Value.int.inj (hm.symm.trans hn))
  obtain ⟨m, hm, hpackets, hbytes⟩ := h.metrics
  obtain ⟨m', hm', hpackets', hbytes'⟩ := h'.metrics
  obtain rfl := Value.obj.inj (hm.symm.trans hm')
  rintro (hne | hne | hne | hne | hne | hne | hne | hne)
  · exact hne (hstring h.framework h'.framework)
  · exact hne (hstring h.evidenceClass h'.evidenceClass)
  · exact hne (hstring h.registryId h'.registryId)
  · exact hne (hstring h.interfaceName h'.interfaceName)
  · exact hne (UInt32.toNat.inj (hint h.queueId h'.queueId))
  · exact hne (UInt64.toNat.inj (hint hpackets hpackets'))
  · exact hne (UInt64.toNat.inj (hint hbytes hbytes'))
  · exact hne (h.verificationState.symm.trans h'.verificationState)

end Records

/-- **Two records are written faithfully exactly if the strings of both are plain text and
neither execution failed.** -/
theorem evidence_faithful_iff (r r' : SipEvidenceRecord) (filepath filepath' : CString)
    (now : Tm) : Faithful r r' filepath filepath' now ↔
      (PlainStrings r ∧ r.executionStatus = 0) ∧ PlainStrings r' ∧ r'.executionStatus = 0 := by
  rw [← recovered_iff r now, ← recovered_iff r' now]
  constructor
  · rintro ⟨data, data', hwrite, hwrite', hdata, hdata', -⟩
    obtain rfl : evidenceBlock r now = data := Option.some.inj (Prod.mk.inj hwrite).2
    obtain rfl : evidenceBlock r' now = data' := Option.some.inj (Prod.mk.inj hwrite').2
    exact ⟨hdata, hdata'⟩
  · rintro ⟨hdata, hdata'⟩
    refine ⟨_, _, rfl, rfl, hdata, hdata', fun hdiffer heq => ?_⟩
    rw [← heq] at hdata'
    obtain ⟨d, hload, hshows⟩ := hdata
    obtain ⟨d', hload', hshows'⟩ := hdata'
    obtain rfl := Value.obj.inj (Option.some.inj (hload.symm.trans hload'))
    exact not_differ_of_shows hshows hshows' hdiffer

/-- The interface `eth0`. -/
def eth0 : CString := ⟨octets "eth0", by decide⟩

/-- Midnight on the first day of 2026. -/
def newYear : Tm where
  tmYear := 126
  tmMon := 0
  tmMday := 1
  tmHour := 0
  tmMin := 0
  tmSec := 0
  tmMon_lt := by decide
  tmMday_le := by decide
  tmHour_lt := by decide
  tmMin_lt := by decide
  tmSec_le := by decide

/-- The record of a failed execution. -/
def failedRecord : SipEvidenceRecord := { mainRecord eth0 0 with executionStatus := 1 }

/-- A failed execution is written like one that passed. -/
theorem failed_record_passes :
    ¬∀ (r r' : SipEvidenceRecord) (filepath filepath' : CString) (now : Tm),
      Faithful r r' filepath filepath' now := by
  intro hclaim
  obtain ⟨data, data', hwrite, hwrite', -, -, hne⟩ :=
    hclaim (mainRecord eth0 0) failedRecord eth0 eth0 newYear
  have hsame : data = data' := by
    rw [← Option.some.inj (Prod.mk.inj hwrite).2, ← Option.some.inj (Prod.mk.inj hwrite').2]
    rfl
  refine hne ?_ hsame
  iterate 7 refine .inr ?_
  exact fun hstatus => absurd (hstatus.mp rfl) (by decide)

/-- **`main` writes a record that is recovered exactly if the name of its interface is plain
text.** -/
theorem recovered_mainRecord_iff (ifname : CString) (queueId : UInt32) (now : Tm) :
    Recovered (evidenceBlock (mainRecord ifname queueId) now) (mainRecord ifname queueId) ↔
      PlainString ifname := by
  have hplain : ∀ s : String, IsScalar (text s) → IsPlain (text s) → ∀ h,
      PlainString ⟨octets s, h⟩ :=
    fun s hscalar hplain _ => ⟨text s, encode_eq_some hscalar, hplain⟩
  rw [recovered_iff]
  constructor
  · rintro ⟨hstrings, -⟩
    exact hstrings.interfaceName
  · intro hname
    exact ⟨⟨hplain _ (by decide) (by decide) _, hplain _ (by decide) (by decide) _,
      hplain _ (by decide) (by decide) _, hname⟩, rfl⟩

end Xdp
end SovereignSeed
