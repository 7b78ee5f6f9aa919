import SovereignSeed.Logger.Line
import SovereignSeed.Logger.Shutdown
import SovereignSeed.Python.TornText

/-!
# The dashboards beside a running engine

`load_jsonl` of `sip_audit_app.py` and `get_latest_metric` of `sip_performance_board.py` open
the log while `logger_worker` is writing it.  The library behind `fprintf` hands octets to the
file whenever it likes, so what is there is any beginning of what has been printed that has at
least what the worker has flushed.

A row is an object on one line.  Of a beginning of a file of rows the readers find the rows
that are whole, be it without the end of the line; the row that is cut off is no value, so the
audit app drops it and the board shows it as a raw line.

## Main definitions

* `getLatestMetric` — what the board shows of a log.
* `IsRow`, `rowsFile` — a line with an object; a file of such lines.
* `Whole` — how many rows there are in a beginning of a file.

## Main results

* `read_of_take` — **what the two readers find in a beginning of a file of rows.**
* `dashboards_read` — **at every moment both show the accepted events, up to one that is at
  least the last one flushed.**
-/

namespace SovereignSeed
namespace Logger

open Python Python.Json

/-! ### The board -/

/-- `{"status": …}`. -/
def status (s : String) : Value := .obj [(text "status", .str (text s))]

/-- The loop over the lines from the last one back. -/
def latestLine : List PyStr → Value
  | [] => status "No data"
  | line :: lines =>
    if strip line = [] then latestLine lines
    else if (strip line).head? = some 0x7b then
      (load (strip line)).getD (.obj [(text "raw", .str (strip line))])
    else .obj [(text "raw", .str (strip line))]

/-- `get_latest_metric` of a file that may not be there; `none` where reading it raises. -/
def getLatestMetric (file : Option Bytes) : Option Value :=
  match file with
  | none => some (status "Inactive / File Missing")
  | some data => (readText true data).map fun s => latestLine (fileLines s).reverse

/-! ### Rows -/

/-- The line `s` is an object, without control characters, and is read as `v`. -/
structure IsRow (s : PyStr) (v : Value) : Prop where
  isScalar : IsScalar s
  printed : ∀ c ∈ s, 0x20 ≤ c.val
  opens : s.head? = some 0x7b
  closes : s.getLast? = some 0x7d
  load : Json.load s = some v

/-- The text of some rows. -/
def rowsText (rows : List (PyStr × Value)) : PyStr := rows.flatMap fun r => r.1 ++ [0x0a]

/-- The file of some rows. -/
def rowsFile (rows : List (PyStr × Value)) : Bytes := utf8 (rowsText rows)

namespace IsRow

variable {s t : PyStr} {v : Value}

theorem ne_nil (h : IsRow s v) : s ≠ [] := by
  rintro rfl
  cases h.opens

/-- A row has octets. -/
theorem length_pos (h : IsRow s v) : 0 < (utf8 s).length := by
  obtain ⟨c, u, rfl⟩ := List.exists_cons_of_ne_nil h.ne_nil
  have hunits := List.length_pos_of_ne_nil (utf8Units_ne_nil c.val)
  rw [length_utf8_cons]
  omega

theorem noNewline (h : IsRow s v) : 0x0a ∉ s := by
  intro hmem
  exact absurd (h.printed _ hmem) (by decide)

/-- A beginning of a row that has a character has its brace. -/
theorem head_of_prefix (h : IsRow s v) (ht : t <+: s) (hne : t ≠ []) : t.head? = some 0x7b := by
  obtain ⟨c, u, rfl⟩ := List.exists_cons_of_ne_nil hne
  obtain ⟨q, rfl⟩ := ht
  exact h.opens

/-- What is stripped off a beginning of a row is behind it. -/
theorem strip_prefix (h : IsRow s v) (ht : t <+: s) :
    (strip t <+: t) ∧ (t ≠ [] → (strip t).head? = some 0x7b) := by
  rcases eq_or_ne t [] with rfl | hne
  · exact ⟨List.prefix_rfl, fun hnil => absurd rfl hnil⟩
  obtain ⟨c, u, rfl⟩ := List.exists_cons_of_ne_nil hne
  obtain rfl : c = 0x7b := Option.some.inj (h.head_of_prefix ht hne)
  have hbrace : strip (0x7b :: u) = (0x7b :: u).rdropWhile isSpace := by
    rw [strip, List.dropWhile_cons_of_neg (by decide)]
  rw [hbrace]
  have hle := List.rdropWhile_prefix isSpace (0x7b :: u)
  refine ⟨hle, fun _ => ?_⟩
  -- the brace is no space, so it stays
  have hstays : (0x7b :: u : PyStr).rdropWhile isSpace ≠ [] := by
    intro hnil
    have hall := List.rdropWhile_eq_nil_iff.mp hnil 0x7b (List.mem_cons_self)
    exact absurd hall (by decide)
  exact h.head_of_prefix (hle.trans ht) hstays

/-- There is no white space around a row. -/
theorem strip_eq (h : IsRow s v) : strip s = s := by
  obtain ⟨c, u, hu⟩ := List.exists_cons_of_ne_nil h.ne_nil
  have hopens := h.opens
  have hcloses := h.closes
  rw [hu] at hopens
  obtain rfl : c = 0x7b := Option.some.inj hopens
  rw [strip, hu, List.dropWhile_cons_of_neg (by decide), ← hu, List.rdropWhile_eq_self_iff]
  intro hlast
  rw [List.getLast?_eq_some_getLast hlast] at hcloses
  rw [Option.some.inj hcloses]
  decide

/-- **A row that is cut off is no value.** -/
theorem load_eq_none (h : IsRow s v) (ht : t <+: s) (hne : t ≠ s) :
    Json.load (strip t) = none := by
  rcases eq_or_ne t [] with rfl | hnil
  · rfl
  obtain ⟨hle, hhead⟩ := h.strip_prefix ht
  obtain ⟨q, hq⟩ := hle.trans ht
  have hqne : q ≠ [] := by
    rintro rfl
    rw [List.append_nil] at hq
    refine hne (ht.eq_of_length_le ?_)
    rw [← hq]
    exact hle.length_le
  refine load_eq_none_of_load_append (hhead hnil) (q := q) ?_ (hq ▸ h.load)
  -- the brace at the end is not white space
  intro hws
  have hlast : q.getLast? = some 0x7d := by
    have hcloses := h.closes
    rwa [← hq, List.getLast?_append_of_ne_nil _ hqne] at hcloses
  have hall := List.dropWhile_eq_nil_iff.mp hws _ (List.mem_of_getLast? hlast)
  exact absurd hall (by decide)

theorem loadLine_eq (h : IsRow s v) : loadLine s = some v := by
  rw [loadLine, h.strip_eq, if_pos h.opens, h.load]

theorem loadLine_eq_none (h : IsRow s v) (ht : t <+: s) (hne : t ≠ s) : loadLine t = none := by
  rw [loadLine, h.load_eq_none ht hne]
  exact ite_self none

end IsRow

/-! ### Rows by a template -/

section Templates

variable {ms : Members}

/-- A template is its members among printable characters. -/
theorem mem_rawObject {ms : List (PyStr × PyStr)} {c : CodePoint} (h : c ∈ rawObject ms) :
    isPrint c = true ∨ ∃ m ∈ ms, c ∈ rawMember m := by
  have htail : ∀ {ms : List (PyStr × PyStr)}, c ∈ tailText .spaced 0 0x7d (ms.map rawMember) →
      isPrint c = true ∨ ∃ m ∈ ms, c ∈ rawMember m := by
    intro ms
    induction ms with
    | nil =>
      intro hc
      rw [List.mem_singleton.mp hc]
      exact .inl (by decide)
    | cons m ms ih =>
      intro hc
      have hcons : tailText .spaced 0 0x7d ((m :: ms).map rawMember) =
        0x2c :: 0x20 :: (rawMember m ++ tailText .spaced 0 0x7d (ms.map rawMember)) := rfl
      rw [hcons] at hc
      rcases List.mem_cons.mp hc with rfl | hc
      · exact .inl (by decide)
      rcases List.mem_cons.mp hc with rfl | hc
      · exact .inl (by decide)
      rcases List.mem_append.mp hc with hc | hc
      · exact .inr ⟨m, .head _, hc⟩
      · exact (ih hc).imp_right fun hmem => hmem.imp fun m' hm' => ⟨.tail _ hm'.1, hm'.2⟩
  cases ms with
  | nil =>
    rcases List.mem_cons.mp h with rfl | h
    · exact .inl (by decide)
    · rw [List.mem_singleton.mp h]
      exact .inl (by decide)
  | cons m ms =>
    have hcons : rawObject (m :: ms) =
      0x7b :: (rawMember m ++ tailText .spaced 0 0x7d (ms.map rawMember)) := rfl
    rw [hcons] at h
    rcases List.mem_cons.mp h with rfl | h
    · exact .inl (by decide)
    rcases List.mem_append.mp h with h | h
    · exact .inr ⟨m, .head _, h⟩
    · exact (htail h).imp_right fun hmem => hmem.imp fun m' hm' => ⟨.tail _ hm'.1, hm'.2⟩

/-- A template of plain members has no control characters, and is text. -/
theorem chars_rawObject (h : ∀ m ∈ ms, RawMember m) {c : CodePoint}
    (hc : c ∈ rawObject (rawTexts ms)) : isSurrogate c = false ∧ 0x20 ≤ c.val := by
  have hprint : ∀ {c}, isPrint c = true → isSurrogate c = false ∧ 0x20 ≤ c.val := by
    intro c hc
    have hascii : IsAscii [c] := List.forall_mem_singleton.mpr (ascii_of_isPrint hc)
    simp only [isPrint, Bool.and_eq_true, decide_eq_true_eq] at hc
    exact ⟨by simpa using List.any_eq_false.mp hascii.isScalar c (.head _), hc.1⟩
  have hplain : ∀ {s : PyStr}, IsPlain s → IsScalar s → c ∈ s →
      isSurrogate c = false ∧ 0x20 ≤ c.val := fun hs hscalar hmem =>
    ⟨by simpa using List.any_eq_false.mp hscalar c hmem, (hs c hmem).2.2⟩
  rcases mem_rawObject hc with hc | ⟨m, hm, hc⟩
  · exact hprint hc
  · obtain ⟨⟨k, v⟩, hkv, rfl⟩ := List.mem_map.mp hm
    have hraw := h _ hkv
    have hvalue := hraw.value
    rcases isPrint_of_mem_rawMember hc with hc | hc | hc
    · exact hplain hraw.plain hraw.scalar hc
    · cases v with
      | int n => exact hprint (isPrint_of_mem_decimalInt n c hc)
      | str s =>
        rcases isPrint_of_mem_rawString hc with hc | hc
        · exact hplain hvalue.1 hvalue.2 hc
        · exact hprint hc
      | _ => cases hvalue
    · exact hprint hc

/-- **What a template of plain members prints is a row.** -/
theorem isRow_rawObject (hne : ms ≠ []) (h : ∀ m ∈ ms, RawMember m)
    (hkeys : (ms.map Prod.fst).Nodup) : IsRow (rawObject (rawTexts ms)) (.obj ms) where
  isScalar := List.any_eq_false.mpr fun c hc => by simp [(chars_rawObject h hc).1]
  printed := fun c hc => (chars_rawObject h hc).2
  opens := by
    obtain ⟨m, ms, rfl⟩ := List.exists_cons_of_ne_nil hne
    rfl
  closes := getLast_bracket _ _ _ _ _
  load := by
    have hload := load_rawObject h hkeys (List.forall_mem_nil _)
    rwa [List.append_nil] at hload

end Templates

/-! ### A beginning of a file -/

section Beginnings

variable {rows : List (PyStr × Value)} {n k : ℕ}

/-- The row behind the first `k`, or nothing. -/
def nextText (rows : List (PyStr × Value)) (k : ℕ) : PyStr := (rows[k]?.map Prod.fst).getD []

/-- The first `n` octets have the first `k` rows and no more; the end of a line may be
missing. -/
structure Whole (rows : List (PyStr × Value)) (n k : ℕ) : Prop where
  le : k ≤ rows.length
  within : (rowsFile (rows.take k)).length ≤ n + 1
  next : k < rows.length → n + 1 < (rowsFile (rows.take (k + 1))).length

theorem length_rowsFile_cons (r : PyStr × Value) (rows : List (PyStr × Value)) :
    (rowsFile (r :: rows)).length = (utf8 r.1).length + 1 + (rowsFile rows).length := by
  have hnewline : (utf8Units (0x0a : CodePoint).val).length = 1 := by decide
  rw [rowsFile, rowsText, List.flatMap_cons, List.append_assoc, utf8_append, List.length_append,
    List.singleton_append, length_utf8_cons, hnewline, ← Nat.add_assoc]
  rfl

/-- Rows are text, with no end of a line in it but their own. -/
theorem chars_rowsText (h : ∀ r ∈ rows, IsRow r.1 r.2) :
    IsScalar (rowsText rows) ∧ ∀ c ∈ rowsText rows, c ≠ 0x0d := by
  have hchars : ∀ c ∈ rowsText rows, isSurrogate c = false ∧ c ≠ 0x0d := by
    intro c hc
    obtain ⟨r, hr, hc⟩ := List.mem_flatMap.mp hc
    rcases List.mem_append.mp hc with hc | hc
    · refine ⟨by simpa using List.any_eq_false.mp (h r hr).isScalar c hc, ?_⟩
      rintro rfl
      exact absurd ((h r hr).printed _ hc) (by decide)
    · rw [List.mem_singleton.mp hc]
      decide
  exact ⟨List.any_eq_false.mpr fun c hc => by simp [(hchars c hc).1], fun c hc => (hchars c hc).2⟩

/-- A file grows with its rows. -/
theorem length_rowsFile_take_mono (rows : List (PyStr × Value)) {j k : ℕ} (h : j ≤ k) :
    (rowsFile (rows.take j)).length ≤ (rowsFile (rows.take k)).length := by
  obtain ⟨q, hq⟩ := List.take_prefix_take_left (l := rows) h
  have hsplit : rowsFile (rows.take k) = rowsFile (rows.take j) ++ rowsFile q := by
    rw [← hq, rowsFile, rowsText, List.flatMap_append, utf8_append]
    rfl
  rw [hsplit, List.length_append]
  exact Nat.le_add_right _ _

/-- Enough octets for some rows have them. -/
theorem Whole.le_of_length_le (h : Whole rows n k) {j : ℕ} (hj : j ≤ rows.length)
    (hn : (rowsFile (rows.take j)).length ≤ n) : j ≤ k := by
  by_contra hlt
  have hnext := h.next (by omega)
  have hmono := length_rowsFile_take_mono rows (show k + 1 ≤ j by omega)
  omega

/-- **Where a beginning of a file ends**: inside of a row, or behind its last character. -/
theorem exists_cut : ∀ (rows : List (PyStr × Value)) (n : ℕ), ∃ j,
    j ≤ rows.length ∧ (rowsFile (rows.take j)).length ≤ n ∧
      takeOctets n (rowsText rows) = rowsText (rows.take j) ++
        takeOctets (n - (rowsFile (rows.take j)).length) (nextText rows j) ∧
      (j < rows.length →
        n ≤ (rowsFile (rows.take j)).length + (utf8 (nextText rows j)).length) := by
  intro rows
  induction rows with
  | nil => exact fun n => ⟨0, le_rfl, Nat.zero_le n, by simp [rowsText, nextText, takeOctets_nil],
      fun h => absurd h (lt_irrefl 0)⟩
  | cons r rows ih =>
    intro n
    have htext : rowsText (r :: rows) = r.1 ++ (0x0a :: rowsText rows) := by
      simp [rowsText]
    by_cases hend : (utf8 r.1).length + 1 ≤ n
    · -- the row is there with its end
      obtain ⟨j, hj, hle, htake, hnext⟩ := ih (n - ((utf8 r.1).length + 1))
      have hlen := length_rowsFile_cons r (rows.take j)
      refine ⟨j + 1, Nat.succ_le_succ hj, ?_, ?_, fun hlt => ?_⟩
      · rw [List.take_succ_cons, hlen]
        omega
      · have hnewline : takeOctets (n - (utf8 r.1).length) (0x0a :: rowsText rows) =
            0x0a :: takeOctets (n - ((utf8 r.1).length + 1)) (rowsText rows) := by
          have hunit : (utf8Units (0x0a : CodePoint).val).length = 1 := by decide
          rw [takeOctets, hunit, if_pos (by omega), Nat.sub_sub]
        rw [htext, takeOctets_append, if_pos (by omega), hnewline, htake, List.take_succ_cons,
          hlen, Nat.sub_sub]
        simp [rowsText, nextText]
      · have hlt' : j < rows.length := by simpa using hlt
        have hbound := hnext hlt'
        rw [List.take_succ_cons, hlen]
        have htexts : nextText (r :: rows) (j + 1) = nextText rows j := by
          simp [nextText]
        rw [htexts]
        omega
    · -- the beginning ends inside of the row, or in front of its end
      refine ⟨0, Nat.zero_le _, Nat.zero_le n, ?_, fun _ => ?_⟩
      · have hzero : (rowsFile (List.take 0 (r :: rows))).length = 0 := rfl
        have hfirst : nextText (r :: rows) 0 = r.1 := rfl
        rw [htext, takeOctets_append, hzero, hfirst, Nat.sub_zero]
        split
        · next hle =>
          have hnothing : takeOctets (n - (utf8 r.1).length) (0x0a :: rowsText rows) = [] := by
            have hunit : (utf8Units (0x0a : CodePoint).val).length = 1 := by decide
            rw [takeOctets, hunit, if_neg (by omega)]
          rw [hnothing, List.append_nil, takeOctets_eq_self_iff.mpr hle]
          rfl
        · rfl
      · have hfirst : nextText (r :: rows) 0 = r.1 := rfl
        rw [hfirst]
        omega

/-- The lines of some rows and a beginning of a line. -/
theorem fileLines_rowsText (h : ∀ r ∈ rows, IsRow r.1 r.2) {t : PyStr} (ht : 0x0a ∉ t) :
    fileLines (rowsText rows ++ t) = rows.map Prod.fst ++ if t = [] then [] else [t] := by
  have hsplit : (rowsText rows ++ t).splitOn 0x0a = rows.map Prod.fst ++ [t] := by
    induction rows with
    | nil => exact List.splitOn_eq_singleton ht
    | cons r rows ih =>
      obtain ⟨hr, hrows⟩ := List.forall_mem_cons.mp h
      have htext : rowsText (r :: rows) ++ t = r.1 ++ 0x0a :: (rowsText rows ++ t) := by
        simp [rowsText]
      rw [htext, List.splitOn_append_cons_self, List.splitOn_eq_singleton hr.noNewline, ih hrows]
      rfl
  rw [fileLines, hsplit, List.getLast?_concat, List.dropLast_concat]
  by_cases hnil : t = []
  · rw [if_pos (by rw [hnil]), if_pos hnil, List.append_nil]
  · rw [if_neg (by simpa using hnil), if_neg hnil]

/-- What the board shows behind some rows: the last of them, or a line that is cut off. -/
def shown (rows : List (PyStr × Value)) (torn : PyStr) : Value :=
  if torn = [] then (rows.getLast?.map Prod.snd).getD (status "No data")
  else .obj [(text "raw", .str (strip torn))]

/-- The loop stops at a row. -/
theorem latestLine_row {s : PyStr} {v : Value} (h : IsRow s v) (lines : List PyStr) :
    latestLine (s :: lines) = v := by
  rw [latestLine, h.strip_eq, if_neg h.ne_nil, if_pos h.opens, h.load]
  rfl

theorem latestLine_rows (h : ∀ r ∈ rows, IsRow r.1 r.2) :
    latestLine (rows.map Prod.fst).reverse = shown rows [] := by
  rcases List.eq_nil_or_concat' rows with rfl | ⟨rows, r, rfl⟩
  · rfl
  · rw [List.map_append, List.reverse_append, shown, if_pos rfl, List.getLast?_concat]
    exact latestLine_row (h r (List.mem_append_right _ (List.mem_singleton_self r))) _

/-- The loop stops at a line that is cut off. -/
theorem latestLine_torn {s t : PyStr} {v : Value} (h : IsRow s v) (ht : t <+: s) (hne : t ≠ s)
    (hnil : t ≠ []) (lines : List PyStr) :
    latestLine (t :: lines) = .obj [(text "raw", .str (strip t))] := by
  have hhead := (h.strip_prefix ht).2 hnil
  have hstays : strip t ≠ [] := by
    intro hempty
    rw [hempty] at hhead
    cases hhead
  rw [latestLine, if_neg hstays, if_pos hhead, h.load_eq_none ht hne]
  rfl

/-- What the readers find in some rows and a row that is cut off. -/
theorem read_cut (h : ∀ r ∈ rows, IsRow r.1 r.2) {s t : PyStr} {v : Value}
    (hs : t ≠ [] → IsRow s v) (ht : t <+: s) (hne : t ≠ [] → t ≠ s) :
    (fileLines (rowsText rows ++ t)).filterMap loadLine = rows.map Prod.snd ∧
      latestLine (fileLines (rowsText rows ++ t)).reverse = shown rows t := by
  have hload : (rows.map Prod.fst).filterMap loadLine = rows.map Prod.snd := by
    induction rows with
    | nil => rfl
    | cons r rows ih =>
      obtain ⟨hr, hrows⟩ := List.forall_mem_cons.mp h
      rw [List.map_cons, List.map_cons, List.filterMap_cons_some hr.loadLine_eq, ih hrows]
  have hline : 0x0a ∉ t := by
    intro hc
    have hrow := hs (List.ne_nil_of_mem hc)
    exact hrow.noNewline (ht.subset hc)
  rw [fileLines_rowsText h hline]
  by_cases hnil : t = []
  · rw [if_pos hnil, List.append_nil, hnil]
    exact ⟨hload, latestLine_rows h⟩
  · have hrow := hs hnil
    rw [if_neg hnil, List.filterMap_append, hload, List.filterMap_cons_none
      (hrow.loadLine_eq_none ht (hne hnil)), List.reverse_append, shown, if_neg hnil]
    exact ⟨List.append_nil _, latestLine_torn hrow ht (hne hnil) hnil _⟩

/-- The end of the last line may be missing. -/
theorem fileLines_unended (h : ∀ r ∈ rows, IsRow r.1 r.2) {r : PyStr × Value}
    (hr : IsRow r.1 r.2) :
    fileLines (rowsText rows ++ r.1) = fileLines (rowsText (rows ++ [r])) := by
  have hall : ∀ r' ∈ rows ++ [r], IsRow r'.1 r'.2 := by
    intro r' hr'
    rcases List.mem_append.mp hr' with hr' | hr'
    · exact h r' hr'
    · rwa [List.mem_singleton.mp hr']
  have hlines := fileLines_rowsText hall List.not_mem_nil
  rw [List.append_nil, if_pos rfl, List.append_nil, List.map_append] at hlines
  rw [hlines, fileLines_rowsText h hr.noNewline, if_neg hr.ne_nil]
  rfl

/-- **What a beginning of a text of rows is to a reader of lines**: some rows, and a beginning
of the next one. -/
theorem exists_lines (h : ∀ r ∈ rows, IsRow r.1 r.2) (n : ℕ) : ∃ k torn,
    Whole rows n k ∧ torn <+: nextText rows k ∧ (k < rows.length → torn ≠ nextText rows k) ∧
      fileLines (takeOctets n (rowsText rows)) = fileLines (rowsText (rows.take k) ++ torn) := by
  obtain ⟨j, hj, hle, htake, hnext⟩ := exists_cut rows n
  obtain ⟨t, ht⟩ : ∃ t, t = takeOctets (n - (rowsFile (rows.take j)).length) (nextText rows j) :=
    ⟨_, rfl⟩
  have hprefix : t <+: nextText rows j := ht ▸ takeOctets_isPrefix _ _
  have hrows : ∀ r ∈ rows.take j, IsRow r.1 r.2 := fun r hr => h r (List.mem_of_mem_take hr)
  rw [htake, ← ht]
  rcases Nat.lt_or_eq_of_le hj with hlt | hlast
  · -- the length of one more row
    have hr : rows[j]? = some rows[j] := List.getElem?_eq_getElem hlt
    have hrow : IsRow rows[j].1 rows[j].2 := h _ (List.getElem_mem hlt)
    have htext : nextText rows j = rows[j].1 := by
      rw [nextText, hr]
      rfl
    have hsucc : ∀ i (hi : i < rows.length), (rowsFile (rows.take (i + 1))).length =
        (rowsFile (rows.take i)).length + ((utf8 rows[i].1).length + 1) := by
      intro i hi
      have hone : (rowsFile [rows[i]]).length = (utf8 rows[i].1).length + 1 + 0 :=
        length_rowsFile_cons rows[i] []
      rw [List.take_succ_eq_append_getElem hi, rowsFile, rowsText, List.flatMap_append, utf8_append,
        List.length_append]
      rw [rowsFile, rowsText] at hone
      rw [hone]
      rfl
    have hbound := hnext hlt
    have hlen := hsucc j hlt
    rw [htext] at hbound ht hprefix
    by_cases hall : t = rows[j].1
    · -- the row is whole, and the end of its line is missing
      have hfull := takeOctets_eq_self_iff.mp (ht.symm.trans hall)
      refine ⟨j + 1, [], ⟨hlt, by omega, fun hlt' => ?_⟩, List.nil_prefix, fun hlt' => ?_, ?_⟩
      · have hlen' := hsucc (j + 1) hlt'
        have hpos := (h _ (List.getElem_mem hlt')).length_pos
        omega
      · rw [nextText, List.getElem?_eq_getElem hlt']
        exact (h _ (List.getElem_mem hlt')).ne_nil.symm
      · rw [hall, fileLines_unended hrows hrow, List.append_nil,
          List.take_succ_eq_append_getElem hlt]
    · refine ⟨j, t, ⟨hj, by omega, fun _ => ?_⟩, htext ▸ hprefix, fun _ => htext ▸ hall, rfl⟩
      have htorn : ¬(utf8 rows[j].1).length ≤ n - (rowsFile (rows.take j)).length :=
        fun hle' => hall (ht.trans (takeOctets_eq_self_iff.mpr hle'))
      omega
  · exact ⟨j, t, ⟨hj, by omega, fun hlt => absurd hlt (by omega)⟩, hprefix,
      fun hlt => absurd hlt (by omega), rfl⟩

/-- **What the two readers find in a beginning of a file of rows.** -/
theorem read_of_take (h : ∀ r ∈ rows, IsRow r.1 r.2) (n : ℕ) : ∃ k torn,
    Whole rows n k ∧ torn <+: nextText rows k ∧ (k < rows.length → torn ≠ nextText rows k) ∧
      loadJsonl ((rowsFile rows).take n) = (rows.take k).map Prod.snd ∧
      getLatestMetric (some ((rowsFile rows).take n)) = some (shown (rows.take k) torn) := by
  obtain ⟨hscalar, hreturn⟩ := chars_rowsText h
  have hread : readText true ((rowsFile rows).take n) = some (takeOctets n (rowsText rows)) :=
    readText_take hscalar hreturn n
  obtain ⟨k, torn, hwhole, hprefix, hne, hlines⟩ := exists_lines h n
  have hrows : ∀ r ∈ rows.take k, IsRow r.1 r.2 := fun r hr => h r (List.mem_of_mem_take hr)
  -- a beginning that is not empty is one of a row
  have hlt : torn ≠ [] → k < rows.length := by
    intro hnil
    by_contra hge
    rw [nextText, List.getElem?_eq_none (by omega)] at hprefix
    exact hnil (List.prefix_nil.mp hprefix)
  have hnext : ∀ hk : k < rows.length, nextText rows k = rows[k].1 := by
    intro hk
    rw [nextText, List.getElem?_eq_getElem hk]
    rfl
  obtain ⟨hload, hlatest⟩ := read_cut (v := (rows[k]?.map Prod.snd).getD .null) hrows
    (fun hnil => by
      have hk := hlt hnil
      rw [hnext hk, List.getElem?_eq_getElem hk]
      exact h _ (List.getElem_mem hk)) hprefix (fun hnil => hne (hlt hnil))
  refine ⟨k, torn, hwhole, hprefix, hne, ?_, ?_⟩
  · rw [loadJsonl, hread]
    dsimp only
    rw [hlines, hload]
  · rw [getLatestMetric, hread, Option.map_some, hlines, hlatest]

/-- The whole file is read row by row. -/
theorem read_rows (h : ∀ r ∈ rows, IsRow r.1 r.2) :
    loadJsonl (rowsFile rows) = rows.map Prod.snd := by
  obtain ⟨k, torn, hwhole, -, -, hload, -⟩ := read_of_take h (rowsFile rows).length
  have hle : rows.length ≤ k := hwhole.le_of_length_le le_rfl (by rw [List.take_length])
  rwa [List.take_length, List.take_of_length_le hle] at hload

end Beginnings

/-! ### A running engine -/

/-- The row of a call. -/
def Logged.row (l : Logged) : PyStr × Value := (l.lineText, l.record)

/-- The line of plain strings is a row. -/
theorem Logged.Plain.isRow {l : Logged} (h : l.Plain) : IsRow l.lineText l.record where
  isScalar := l.isScalar_lineText
  printed := fun _ hc => h.le_of_mem_lineText hc
  opens := by
    rw [l.lineText_eq]
    rfl
  closes := by
    rw [Logged.lineText, rawObject]
    exact getLast_bracket _ _ _ _ _
  load := by
    have hload := h.load_lineText (List.forall_mem_nil _)
    rwa [List.append_nil] at hload

/-- The log file is the file of the rows. -/
theorem logFile_eq (log : List Logged) :
    logFile (log.map Logged.event) = rowsFile (log.map Logged.row) := by
  induction log with
  | nil => rfl
  | cons l log ih =>
    rw [logFile, rowsFile, rowsText] at ih
    rw [logFile, rowsFile, rowsText, List.map_cons, List.map_cons, List.flatMap_cons,
      List.flatMap_cons, utf8_append, ih, Logged.line_eq]
    rfl

/-- What has been flushed has been printed. -/
theorem written_prefix_printed {s : Engine} (h : machine.Reachable s) :
    s.written <+: s.printed := by
  apply h.invariant (P := fun s => s.written <+: s.printed)
  · rintro s ⟨memory, rfl⟩
    exact List.prefix_rfl
  · intro u a v hu hst
    cases a with
    | call i c =>
      dsimp only [machine, step] at hst
      split at hst <;> cases hst
      exact hu
    | clock i ts =>
      dsimp only [machine, step] at hst
      split at hst <;> cases hst
      exact hu
    | thread i =>
      have hbeside := beside_threadStep (show threadStep u i = some v from hst)
      rw [hbeside.written, hbeside.printed]
      exact hu
    | openFile ok =>
      dsimp only [machine, step] at hst
      split at hst <;> cases hst
      exact hu
    | worker =>
      dsimp only [machine, step] at hst
      unfold workerStep at hst
      split at hst <;> cases hst
      -- the worker does something else, prints, or flushes
      all_goals first
        | exact hu
        | exact hu.trans (List.prefix_append _ _)
        | exact List.prefix_rfl
    | stop =>
      cases hst
      exact hu

/-- What the readers find in a file of a log: at least what is flushed, at most what is
printed. -/
theorem read_log {printed written waiting : List Event} {old log : List Logged}
    (hlog : printed ++ waiting = log.map Logged.event) (hflushed : written <+: printed)
    (hplain : ∀ l ∈ old ++ log, l.Plain) {n : ℕ}
    (hn : (logFile (old.map Logged.event ++ written)).length ≤ n) :
    ∃ k torn, old.length + written.length ≤ k ∧ k ≤ old.length + printed.length ∧
      loadJsonl ((logFile (old.map Logged.event ++ printed)).take n) =
        ((old ++ log).take k).map Logged.record ∧
      getLatestMetric (some ((logFile (old.map Logged.event ++ printed)).take n)) =
        some (shown (((old ++ log).take k).map Logged.row) torn) ∧
      (torn ≠ [] → ∃ l, (old ++ log)[k]? = some l ∧ torn <+: l.lineText ∧ torn ≠ l.lineText) := by
  -- what is printed, and what is flushed of it, are the events of the first calls
  obtain ⟨printed, waiting, rfl, rfl, -⟩ := List.map_eq_append_iff.mp hlog.symm
  obtain ⟨unflushed, hflushed⟩ := hflushed
  obtain ⟨written, rest, rfl, rfl, -⟩ := List.map_eq_append_iff.mp hflushed.symm
  rw [← List.map_append, logFile_eq] at hn
  rw [← List.map_append, logFile_eq, List.length_map, List.length_map]
  have hrows : ∀ r ∈ (old ++ (written ++ rest)).map Logged.row, IsRow r.1 r.2 := by
    intro r hr
    obtain ⟨l, hl, rfl⟩ := List.mem_map.mp hr
    refine (hplain l ?_).isRow
    rw [← List.append_assoc]
    exact List.mem_append_left _ hl
  obtain ⟨k, torn, hwhole, hprefix, hne, hload, hlatest⟩ := read_of_take hrows n
  have hle := hwhole.le
  rw [List.length_map, List.length_append] at hle
  have hfront : (old ++ (written ++ rest ++ waiting)).take k =
      (old ++ (written ++ rest)).take k := by
    rw [← List.append_assoc, List.take_append_of_le_length (by simpa using hle)]
  refine ⟨k, torn, ?_, hle, ?_, ?_, fun hnil => ?_⟩
  · refine hwhole.le_of_length_le (by simp) ?_
    rw [← List.map_take, ← List.length_append, ← List.append_assoc, List.take_left]
    exact hn
  · rw [hload, hfront, ← List.map_take, List.map_map]
    rfl
  · rw [hlatest, hfront, ← List.map_take]
  · rw [nextText, List.getElem?_map, Option.map_map] at hprefix hne
    cases hget : (old ++ (written ++ rest))[k]? with
    | none =>
      rw [hget] at hprefix
      exact absurd (List.prefix_nil.mp hprefix) hnil
    | some l =>
      have hlt := (List.getElem?_eq_some_iff.mp hget).1
      rw [hget] at hprefix hne
      refine ⟨l, ?_, hprefix, hne (by simpa using hlt)⟩
      rw [← List.append_assoc, List.getElem?_append_left hlt, hget]

/-- **At every moment both dashboards show the accepted events.**  The file has what earlier
runs left in it and any beginning of what is printed, with what is flushed. -/
theorem dashboards_read {s : Engine} (h : machine.Reachable s) {old log : List Logged}
    (hlog : s.accepted = log.map Logged.event) (hplain : ∀ l ∈ old ++ log, l.Plain) {n : ℕ}
    (hn : (logFile (old.map Logged.event ++ s.written)).length ≤ n) :
    ∃ k torn, old.length + s.written.length ≤ k ∧ k ≤ old.length + s.printed.length ∧
      loadJsonl ((logFile (old.map Logged.event ++ s.printed)).take n) =
        ((old ++ log).take k).map Logged.record ∧
      getLatestMetric (some ((logFile (old.map Logged.event ++ s.printed)).take n)) =
        some (shown (((old ++ log).take k).map Logged.row) torn) ∧
      (torn ≠ [] → ∃ l, (old ++ log)[k]? = some l ∧ torn <+: l.lineText ∧ torn ≠ l.lineText) := by
  obtain ⟨lo, hi, hrep⟩ := rep_of_reachable h
  have haccepted := hrep.log
  rw [List.append_assoc, hlog] at haccepted
  exact read_log haccepted (written_prefix_printed h) hplain hn

/-- The call of `pulse`, with its clock. -/
def loggedPulse (sequence timestampNs : Int64) : Logged where
  level := text "D"
  msg := text "H"
  sequence := sequence
  timestampNs := timestampNs
  level_isScalar := by decide
  msg_isScalar := by decide
  level_noNul := by decide
  msg_noNul := by decide
  level_length := by decide
  msg_length := by decide

theorem plain_loggedPulse (sequence timestampNs : Int64) :
    (loggedPulse sequence timestampNs).Plain where
  level := by
    show IsPlain (text "D")
    decide
  msg := by
    show IsPlain (text "H")
    decide
  ne_timestampNs := by
    show text "D" ≠ text "timestamp_ns"
    decide
  ne_sequence := by
    show text "D" ≠ text "sequence"
    decide

/-- The worker has printed the first of two pulses, and the dashboards read twenty octets behind
a pulse of an earlier run. -/
theorem dashboards_read_twoPulses :
    ∃ s, machine.Reachable s ∧ s.printed.length = 1 ∧ ∃ k torn, 1 ≤ k ∧ k ≤ 2 ∧
      loadJsonl ((logFile ([(loggedPulse 7 3).event] ++ s.printed)).take 80) =
        ([loggedPulse 7 3, loggedPulse 1 10, loggedPulse 2 20].take k).map Logged.record ∧
      getLatestMetric (some ((logFile ([(loggedPulse 7 3).event] ++ s.printed)).take 80)) =
        some (shown (([loggedPulse 7 3, loggedPulse 1 10, loggedPulse 2 20].take k).map
          Logged.row) torn) := by
  have hexec : (machine.exec (fun _ _ => true) (initEngine fun _ => .blank)
      (twoPulses ++ [.worker])).map (fun s => (s.written, s.printed.length, s.accepted)) =
        some ([], 1, [(loggedPulse 1 10).event, (loggedPulse 2 20).event]) := by
    decide +kernel
  obtain ⟨s, hs, hend⟩ := Machine.exists_path_of_exec hexec
  obtain ⟨hwritten, hend⟩ := Prod.mk.inj hend
  obtain ⟨hprinted, haccepted⟩ := Prod.mk.inj hend
  have hreach : machine.Reachable s := hs.reachable (.init ⟨_, rfl⟩)
  have hlog : s.accepted = [loggedPulse 1 10, loggedPulse 2 20].map Logged.event := haccepted
  have hplain : ∀ l ∈ [loggedPulse 7 3] ++ [loggedPulse 1 10, loggedPulse 2 20], l.Plain := by
    intro l hl
    simp only [List.cons_append, List.nil_append, List.mem_cons, List.not_mem_nil, or_false] at hl
    rcases hl with rfl | rfl | rfl
    · exact plain_loggedPulse 7 3
    · exact plain_loggedPulse 1 10
    · exact plain_loggedPulse 2 20
  have hfile : (logFile ([loggedPulse 7 3].map Logged.event ++ s.written)).length ≤ 80 := by
    rw [hwritten]
    decide +kernel
  obtain ⟨k, torn, hle, hge, hload, hlatest, -⟩ := dashboards_read hreach hlog hplain hfile
  rw [hprinted] at hge
  rw [hwritten] at hle
  exact ⟨s, hreach, hprinted, k, torn, hle, hge, hload, hlatest⟩

end Logger
end SovereignSeed
