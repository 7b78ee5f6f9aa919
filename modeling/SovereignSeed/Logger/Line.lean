import SovereignSeed.Logger.Queue
import SovereignSeed.Python.JsonRaw

/-!
# The log file

`logger_worker` prints an event by a template of `fprintf`, with the level as a key, and
without escapes.  `load_jsonl` of `sip_audit_app.py` reads the file line by line and drops
the lines that it cannot parse.

The events are those whose strings are text and fit into their arrays, so that nothing is cut
off.  No line of theirs has an integer of more than 4300 digits, on which `json.loads` would
raise an error that ends the loop.

## Main definitions

* `Event.line` — what is printed; `loadJsonl` — what is read.
* `Logged` — a call with strings that are text and fit; `Logged.record` — its decoded line.
* `Logged.Decoded`, `Logged.Plain` — the line is read back; the strings need no escapes.

## Main results

* `decoded_of_plain`, `plain_of_load` — what is read back.
* `log_iff` — **a log is read back exactly if the strings of its events need no escapes and
  no level is one of the two other keys.**
* `quoted_message_is_lost` — a message with a quotation mark is dropped.
-/

namespace SovereignSeed
namespace Logger

open Python Python.Json

/-! ### Writing -/

/-- `fprintf(f, "{\"timestamp_ns\": %lld, \"%s\": \"%s\", \"sequence\": %ld}\n", …)`. -/
def Event.line (e : Event) : Bytes :=
  utf8 (text "\x7b\"timestamp_ns\": " ++ decimalInt e.timestampNs.toInt ++ text ", \"") ++
    e.level ++ utf8 (text "\": \"") ++ e.msg ++
      utf8 (text "\", \"sequence\": " ++ decimalInt e.sequence.toInt ++ text "\x7d\n")

/-- The log file of some events. -/
def logFile (es : List Event) : Bytes := es.flatMap Event.line

/-! ### Reading -/

/-- The lines of a text, without their ends. -/
def fileLines (s : PyStr) : List PyStr :=
  if (s.splitOn 0x0a).getLast? = some [] then (s.splitOn 0x0a).dropLast else s.splitOn 0x0a

/-- What `load_jsonl` makes of a line. -/
def loadLine (line : PyStr) : Option Value :=
  if (strip line).head? = some 0x7b then load (strip line) else none

/-- The rows of `load_jsonl`. -/
def loadJsonl (data : Bytes) : List Value :=
  match readText true data with
  | some s => (fileLines s).filterMap loadLine
  | none => []

/-! ### What is logged -/

/-- A call of `log_event` whose strings are text and fit, and its clock. -/
structure Logged where
  level : PyStr
  msg : PyStr
  sequence : Int64
  timestampNs : Int64
  level_isScalar : IsScalar level
  msg_isScalar : IsScalar msg
  level_noNul : 0 ∉ level
  msg_noNul : 0 ∉ msg
  level_length : (utf8 level).length ≤ 15
  msg_length : (utf8 msg).length ≤ 127

/-- A null octet is a null character. -/
theorem zero_notMem_utf8 {s : PyStr} (h : 0 ∉ s) : 0 ∉ utf8 s := by
  intro hmem
  obtain ⟨c, hc, hzero⟩ := exists_of_mem_utf8 (by decide) hmem
  obtain rfl : c = 0 := Fin.ext hzero
  exact h hc

namespace Logged

/-- The call. -/
def call (l : Logged) : Call where
  level := ⟨utf8 l.level, zero_notMem_utf8 l.level_noNul⟩
  msg := ⟨utf8 l.msg, zero_notMem_utf8 l.msg_noNul⟩
  sequence := l.sequence

/-- The event of the call. -/
def event (l : Logged) : Event := l.call.record l.timestampNs

/-- The members of the decoded line. -/
def members (l : Logged) : Members :=
  [(text "timestamp_ns", .int l.timestampNs.toInt), (l.level, .str l.msg),
    (text "sequence", .int l.sequence.toInt)]

/-- The decoded line. -/
def record (l : Logged) : Value := .obj l.members

/-- The line is a single one and is read back. -/
structure Decoded (l : Logged) : Prop where
  single : ∃ s, l.event.line = s ++ [0x0a] ∧ 0x0a ∉ s
  load : loadBytes l.event.line = some l.record

/-- The strings need no escapes, and the level is a key of its own. -/
structure Plain (l : Logged) : Prop where
  level : IsPlain l.level
  msg : IsPlain l.msg
  ne_timestampNs : l.level ≠ text "timestamp_ns"
  ne_sequence : l.level ≠ text "sequence"

/-- The line as text, without its end. -/
def lineText (l : Logged) : PyStr := rawObject (rawTexts l.members)

theorem line_eq (l : Logged) : l.event.line = utf8 (l.lineText ++ [0x0a]) := by
  have hevent : l.event = ⟨l.timestampNs, l.sequence, utf8 l.level, utf8 l.msg⟩ := by
    rw [event, Call.record, call]
    dsimp only
    rw [List.take_of_length_le l.level_length, List.take_of_length_le l.msg_length]
  -- the pieces of the format
  have hfront : text "\x7b\"timestamp_ns\": " =
      0x7b :: (rawString (text "timestamp_ns") ++ [0x3a, 0x20]) := by decide
  have hkey : text ", \"" = [0x2c, 0x20, 0x22] := by decide
  have hvalue : text "\": \"" = [0x22, 0x3a, 0x20, 0x22] := by decide
  have hback : text "\", \"sequence\": " =
      0x22 :: 0x2c :: 0x20 :: (rawString (text "sequence") ++ [0x3a, 0x20]) := by decide
  have hend : text "\x7d\n" = [0x7d, 0x0a] := by decide
  have htext : l.lineText ++ [0x0a] =
      text "\x7b\"timestamp_ns\": " ++ decimalInt l.timestampNs.toInt ++ text ", \"" ++
        l.level ++ text "\": \"" ++ l.msg ++
          (text "\", \"sequence\": " ++ decimalInt l.sequence.toInt ++ text "\x7d\n") := by
    rw [hfront, hkey, hvalue, hback, hend, lineText, rawObject]
    simp [members, rawTexts, rawText, rawMember, rawString, bracket, tailText, Style.spaced,
      Value.render]
  rw [hevent, Event.line, htext]
  simp only [utf8_append]

theorem lineText_eq (l : Logged) :
    l.lineText = 0x7b :: (rawMember (text "timestamp_ns", decimalInt l.timestampNs.toInt) ++
      0x2c :: 0x20 :: (rawMember (l.level, rawString l.msg) ++
        0x2c :: 0x20 :: (rawMember (text "sequence", decimalInt l.sequence.toInt) ++ [0x7d]))) := by
  simp [lineText, rawObject, members, rawTexts, rawText, bracket, tailText, Style.spaced,
    Value.render]

/-! ### What is read back -/

section Lines

variable {l : Logged} {c : CodePoint}

/-- The line is the strings among printable characters. -/
theorem isPrint_of_mem_lineText (h : c ∈ l.lineText) :
    c ∈ l.level ∨ c ∈ l.msg ∨ isPrint c = true := by
  have hnumber : ∀ {key : PyStr} {n : ℤ}, key.all isPrint = true →
      c ∈ rawMember (key, decimalInt n) → isPrint c = true := by
    intro key n hkey hc
    rcases isPrint_of_mem_rawMember hc with hc | hc | hc
    · exact List.all_eq_true.mp hkey c hc
    · exact isPrint_of_mem_decimalInt n c hc
    · exact hc
  have hseparator : c = 0x2c ∨ c = 0x20 ∨ c = 0x7b ∨ c = 0x7d → isPrint c = true := by
    rintro (rfl | rfl | rfl | rfl) <;> decide
  rw [lineText_eq] at h
  simp only [List.mem_cons, List.mem_append, List.not_mem_nil, or_false] at h
  rcases h with h | h | h | h | h | h | h | h | h
  · exact .inr (.inr (hseparator (by simp [h])))
  · exact .inr (.inr (hnumber (by decide) h))
  · exact .inr (.inr (hseparator (by simp [h])))
  · exact .inr (.inr (hseparator (by simp [h])))
  · rcases isPrint_of_mem_rawMember h with h | h | h
    · exact .inl h
    · exact .inr (isPrint_of_mem_rawString h)
    · exact .inr (.inr h)
  · exact .inr (.inr (hseparator (by simp [h])))
  · exact .inr (.inr (hseparator (by simp [h])))
  · exact .inr (.inr (hnumber (by decide) h))
  · exact .inr (.inr (hseparator (by simp [h])))

theorem isScalar_lineText (l : Logged) : IsScalar l.lineText := by
  refine List.any_eq_false.mpr fun c hc => ?_
  rcases isPrint_of_mem_lineText hc with hc | hc | hc
  · exact List.any_eq_false.mp l.level_isScalar c hc
  · exact List.any_eq_false.mp l.msg_isScalar c hc
  · have hascii : IsAscii [c] := List.forall_mem_singleton.mpr (ascii_of_isPrint hc)
    exact List.any_eq_false.mp hascii.isScalar c (.head _)

/-- A plain line has no control characters. -/
theorem Plain.le_of_mem_lineText (h : l.Plain) (hc : c ∈ l.lineText) : 0x20 ≤ c.val := by
  rcases isPrint_of_mem_lineText hc with hc | hc | hc
  · exact (h.level c hc).2.2
  · exact (h.msg c hc).2.2
  · simp only [isPrint, Bool.and_eq_true, decide_eq_true_eq] at hc
    exact hc.1

/-- The line of plain strings is loaded as the record. -/
theorem Plain.load_lineText (h : l.Plain) {w : PyStr} (hw : ∀ c ∈ w, isWs c = true) :
    Json.load (l.lineText ++ w) = some l.record := by
  have htime : IsPlain (text "timestamp_ns") ∧ IsScalar (text "timestamp_ns") := by
    decide
  have hsequence : IsPlain (text "sequence") ∧ IsScalar (text "sequence") := by decide
  have hraw : ∀ m ∈ l.members, RawMember m := by
    intro m hm
    simp only [members, List.mem_cons, List.not_mem_nil, or_false] at hm
    rcases hm with rfl | rfl | rfl
    · exact ⟨htime.1, htime.2, natAbs_toInt_lt _⟩
    · exact ⟨h.level, l.level_isScalar, h.msg, l.msg_isScalar⟩
    · exact ⟨hsequence.1, hsequence.2, natAbs_toInt_lt _⟩
  have hkeys : (l.members.map Prod.fst).Nodup := by
    have hne : text "timestamp_ns" ≠ text "sequence" := by decide
    simp [members, h.ne_timestampNs.symm, h.ne_sequence, hne]
  exact load_rawObject hraw hkeys hw

/-- **Plain strings are read back.** -/
theorem decoded_of_plain (h : l.Plain) : l.Decoded where
  single := by
    have hnewline : utf8 [0x0a] = [0x0a] := by decide
    refine ⟨utf8 l.lineText, ?_, fun hmem => ?_⟩
    · rw [line_eq, utf8_append, hnewline]
    · obtain ⟨c, hc, hval⟩ := exists_of_mem_utf8 (by decide) hmem
      have hle := h.le_of_mem_lineText hc
      rw [hval] at hle
      exact absurd hle (by decide)
  load := by
    have hscalar : IsScalar (l.lineText ++ [0x0a]) :=
      isScalar_append.mpr ⟨isScalar_lineText l, by decide⟩
    rw [line_eq, loadBytes_utf8 hscalar]
    exact h.load_lineText fun c hc => by
      rw [List.mem_singleton.mp hc]
      decide

/-- The line behind its first member. -/
def otherText (l : Logged) : PyStr :=
  rawMember (l.level, rawString l.msg) ++
    0x2c :: 0x20 :: (rawMember (text "sequence", decimalInt l.sequence.toInt) ++ [0x7d, 0x0a])

/-- The members that are read of a line: the first, and a row of others. -/
theorem exists_others_of_parse {ms : Members}
    (h : parse (l.lineText ++ [0x0a]) = some (.obj ms)) :
    ∃ n k others r, ms = (text "timestamp_ns", .int l.timestampNs.toInt) :: others ∧
      readSeq (readEntry (readValue n)) 0x7d k l.otherText = some (others, r) := by
  have hsplit : l.lineText ++ [0x0a] =
      0x7b :: (rawMember (text "timestamp_ns", decimalInt l.timestampNs.toInt) ++
        0x2c :: 0x20 :: l.otherText) := by
    rw [lineText_eq, otherText]
    simp
  have htime : IsPlain (text "timestamp_ns") ∧ IsScalar (text "timestamp_ns") := by
    decide
  have hfirst : RawMember (text "timestamp_ns", .int l.timestampNs.toInt) :=
    ⟨htime.1, htime.2, natAbs_toInt_lt _⟩
  rw [hsplit, parse, skipWs_cons (by decide), List.length_cons] at h
  split at h
  · next v r hread =>
    split at h
    · cases h
      rw [readValue, if_neg (by decide), if_pos rfl] at hread
      obtain ⟨⟨ms', r'⟩, hbracket, heq⟩ := Option.map_eq_some_iff.mp hread
      cases heq
      obtain ⟨k, others, hms, hseq⟩ :=
        exists_others_of_readBracket hfirst ⟨0x22, _, rfl, by decide, by decide, by decide⟩ hbracket
      exact ⟨_, k, others, _, hms, hseq⟩
    · cases h
  · cases h

/-- **What is read back was plain.** -/
theorem plain_of_load (h : Json.load (l.lineText ++ [0x0a]) = some l.record) : l.Plain := by
  -- the keys of a `dict` differ
  have hkeys : (l.members.map Prod.fst).Nodup := nodup_of_load h
  have hlevel : l.level ≠ text "timestamp_ns" ∧ l.level ≠ text "sequence" := by
    simp only [members, List.map_cons, List.map_nil, List.nodup_cons, List.mem_cons,
      List.not_mem_nil, or_false, not_or] at hkeys
    exact ⟨fun heq => hkeys.1.1 heq.symm, hkeys.2.1⟩
  obtain ⟨ms, hparse, hmembers⟩ := exists_parse_of_load h
  obtain ⟨n, k, others, r, rfl, hread⟩ := exists_others_of_parse hparse
  -- the other two members are read, and there is no room for a third
  have hmem : ∀ {a : PyStr} {v : Value}, (a, v) ∈ l.members → a ≠ text "timestamp_ns" →
      (∀ vs, v ≠ .arr vs) → (∀ ms, v ≠ .obj ms) → (a, v) ∈ others := by
    intro a v hm hkey harr hobj
    rw [← hmembers] at hm
    refine (List.mem_cons.mp (mem_of_mem_dict harr hobj hm)).resolve_left fun heq => ?_
    exact hkey (Prod.mk.inj heq).1
  have hsequence : text "sequence" ≠ text "timestamp_ns" := by decide
  have hmsg : (l.level, .str l.msg) ∈ others := hmem (.tail _ (.head _)) hlevel.1 nofun nofun
  have hlast : (text "sequence", .int l.sequence.toInt) ∈ others :=
    hmem (.tail _ (.tail _ (.head _))) hsequence nofun nofun
  have hsizes := sizes_le_of_readSeq (f := memberSize)
    (fun s m r hm => size_le_of_readEntry (fun _ _ _ hv => size_le_of_readValue hv) hm) hread
  have hroom : (others.map fun m => memberSize m + 1).sum ≤
      (memberSize (l.level, .str l.msg) + 1) +
        (memberSize (text "sequence", .int l.sequence.toInt) + 1) + 4 := by
    simp only [otherText, rawMember, rawString, List.length_append, List.length_cons,
      List.length_nil] at hsizes
    have hstr : memberSize (l.level, .str l.msg) = l.level.length + 3 + (l.msg.length + 2) := rfl
    have hint : memberSize (text "sequence", .int l.sequence.toInt) =
        (text "sequence").length + 3 + (decimalInt l.sequence.toInt).length := rfl
    omega
  rcases eq_pair_of_sum_le (f := fun m => memberSize m + 1) hmsg hlast
    (fun heq => hlevel.2 (Prod.mk.inj heq).1) (fun m => by
      have hpos := size_pos m.2
      rw [memberSize]
      omega) hroom with rfl | rfl
  · obtain ⟨q, hentry⟩ := head_of_readSeq hread
    rw [otherText] at hentry
    obtain ⟨hplain, hplain'⟩ := plain_of_readEntry hentry
    exact ⟨hplain, hplain', hlevel.1, hlevel.2⟩
  · -- the members stand in the order they are written in
    have hnodup : [text "timestamp_ns", text "sequence", l.level].Nodup := by
      simp [hlevel.1.symm, hlevel.2.symm, hsequence.symm]
    have hsame := hmembers
    rw [dictOf_eq_self (by exact hnodup)] at hsame
    simp only [members, List.map_cons, List.map_nil, List.cons.injEq, Prod.mk.injEq] at hsame
    exact absurd hsame.2.1.1.symm hlevel.2

theorem Decoded.plain (h : l.Decoded) : l.Plain := by
  have hscalar : IsScalar (l.lineText ++ [0x0a]) :=
    isScalar_append.mpr ⟨isScalar_lineText l, by decide⟩
  have hload := h.load
  rw [line_eq, loadBytes_utf8 hscalar] at hload
  exact plain_of_load hload

/-! ### The file -/

/-- There is no white space around a line. -/
theorem strip_lineText (l : Logged) : strip l.lineText = l.lineText := by
  obtain ⟨s, hs⟩ : ∃ s, l.lineText = 0x7b :: (s ++ [0x7d]) := by
    rw [lineText_eq]
    exact ⟨rawMember (text "timestamp_ns", decimalInt l.timestampNs.toInt) ++
      0x2c :: 0x20 :: (rawMember (l.level, rawString l.msg) ++
        0x2c :: 0x20 :: rawMember (text "sequence", decimalInt l.sequence.toInt)), by simp⟩
  rw [hs, strip, List.dropWhile_cons_of_neg (by decide), List.rdropWhile_eq_self_iff]
  intro hne
  rw [List.getLast_cons (by simp), List.getLast_append_singleton]
  decide

/-- A plain line is a row. -/
theorem Plain.loadLine (h : l.Plain) : Logger.loadLine l.lineText = some l.record := by
  have hload := h.load_lineText (List.forall_mem_nil _)
  rw [List.append_nil] at hload
  have hhead : l.lineText.head? = some 0x7b := by
    rw [lineText_eq]
    rfl
  rw [Logger.loadLine, strip_lineText, if_pos hhead, hload]

end Lines

end Logged

/-- Lines that are written are the lines that are read. -/
theorem fileLines_flatMap {ls : List PyStr} (h : ∀ s ∈ ls, 0x0a ∉ s) :
    fileLines (ls.flatMap fun s => s ++ [0x0a]) = ls := by
  have hsplit : (ls.flatMap fun s => s ++ [0x0a]).splitOn 0x0a = ls ++ [[]] := by
    induction ls with
    | nil => rfl
    | cons s ls ih =>
      obtain ⟨hs, hls⟩ := List.forall_mem_cons.mp h
      rw [List.flatMap_cons, List.append_assoc, List.singleton_append,
        List.splitOn_append_cons_self, List.splitOn_eq_singleton hs, ih hls]
      rfl
  rw [fileLines, hsplit, List.getLast?_append, List.dropLast_concat]
  rfl

/-- **The log of plain strings is read back, row by row.** -/
theorem loadJsonl_logFile {log : List Logged} (h : ∀ l ∈ log, l.Plain) :
    loadJsonl (logFile (log.map Logged.event)) = log.map Logged.record := by
  have hfile : logFile (log.map Logged.event) =
      utf8 ((log.map Logged.lineText).flatMap fun s => s ++ [0x0a]) := by
    clear h
    induction log with
    | nil => rfl
    | cons l log ih =>
      rw [logFile] at ih
      rw [logFile, List.map_cons, List.map_cons, List.flatMap_cons, List.flatMap_cons, utf8_append,
        ih, Logged.line_eq]
  have hchars : ∀ c ∈ (log.map Logged.lineText).flatMap fun s => s ++ [0x0a],
      isSurrogate c = false ∧ c ≠ 0x0d := by
    intro c hc
    obtain ⟨s, hs, hc⟩ := List.mem_flatMap.mp hc
    obtain ⟨l, hl, rfl⟩ := List.mem_map.mp hs
    rcases List.mem_append.mp hc with hc | hc
    · refine ⟨by simpa using List.any_eq_false.mp l.isScalar_lineText c hc, ?_⟩
      rintro rfl
      exact absurd ((h l hl).le_of_mem_lineText hc) (by decide)
    · rw [List.mem_singleton.mp hc]
      decide
  have hread : readText true (utf8 ((log.map Logged.lineText).flatMap fun s => s ++ [0x0a])) =
      some ((log.map Logged.lineText).flatMap fun s => s ++ [0x0a]) :=
    readText_utf8 (List.any_eq_false.mpr fun c hc => by simp [(hchars c hc).1])
      (fun c hc => (hchars c hc).2) true
  have hlines : ∀ s ∈ log.map Logged.lineText, 0x0a ∉ s := by
    intro s hs hc
    obtain ⟨l, hl, rfl⟩ := List.mem_map.mp hs
    exact absurd ((h l hl).le_of_mem_lineText hc) (by decide)
  rw [loadJsonl, hfile, hread]
  dsimp only
  rw [fileLines_flatMap hlines]
  clear hfile hchars hread hlines
  induction log with
  | nil => rfl
  | cons l log ih =>
    obtain ⟨hl, hlog⟩ := List.forall_mem_cons.mp h
    rw [List.map_cons, List.map_cons, List.filterMap_cons_some hl.loadLine, ih hlog]

/-- **A log is read back exactly if the strings of its events need no escapes and no level is
one of the two other keys.** -/
theorem log_iff (log : List Logged) :
    ((∀ l ∈ log, l.Decoded) ∧
      loadJsonl (logFile (log.map Logged.event)) = log.map Logged.record) ↔
        ∀ l ∈ log, l.Plain := by
  constructor
  · rintro ⟨hdecoded, -⟩ l hl
    exact (hdecoded l hl).plain
  · intro hplain
    exact ⟨fun l hl => Logged.decoded_of_plain (hplain l hl), loadJsonl_logFile hplain⟩

/-- An event whose message is `a"b`. -/
def quotedMessage : Logged where
  level := text "INFO"
  msg := text "a\"b"
  sequence := 1
  timestampNs := 5
  level_isScalar := by decide
  msg_isScalar := by decide
  level_noNul := by decide
  msg_noNul := by decide
  level_length := by decide
  msg_length := by decide

/-- A message with a quotation mark is dropped. -/
theorem quoted_message_is_lost :
    ¬∀ log : List Logged, (∀ l ∈ log, l.Decoded) ∧
      loadJsonl (logFile (log.map Logged.event)) = log.map Logged.record := by
  intro hclaim
  have hlost : (loadJsonl (logFile [quotedMessage.event])).length = 0 := by decide +kernel
  have hrows := (hclaim [quotedMessage]).2
  rw [List.map_singleton] at hrows
  rw [hrows] at hlost
  cases hlost

end Logger
end SovereignSeed
