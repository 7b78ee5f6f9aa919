import SovereignSeed.Foundation.Machine
import SovereignSeed.Foundation.Window
import Mathlib.Data.Int.Notation

/-!
# The log queue

`src/engine.c`: threads call `log_event`, which puts an event into a ring under a spin
lock; `logger_worker` takes the events out, without the lock, and prints them.  Every
atomic access is a step, in sequentially consistent order, and so is every store to a
slot and every cell of the worker's copy of it.  Strings are copied character by
character, up to the size of their array.

The fields `accepted` and `printed` are history: the events whose call has advanced
`tail`, and the events that `fprintf` has been called for.

## Main definitions

* `Cell`, `Slot` — the memory of an event; `Event` — what is read off it.
* `Pc`, `WorkerPc` — where a thread in `log_event` and the worker are.
* `Engine`, `step`, `machine` — the queue and its steps.

## Main results

* `Slot.event_record` — the stores of a call leave its event in any slot.
-/

namespace SovereignSeed
namespace Logger

/-- `QUEUE_SIZE`. -/
def queueSize : ℕ := 131072

/-- `BATCH_FLUSH_COUNT`. -/
def batchFlushCount : ℕ := 512

/-! ### Events in memory -/

/-- A string as a pointer gives it: the bytes before the first null. -/
structure CString where
  bytes : List UInt8
  noNul : 0 ∉ bytes

/-- The strings of an event. -/
inductive Field
  | level
  | msg
  deriving DecidableEq

/-- The size of the array of a string. -/
def Field.size : Field → ℕ
  | .level => 16
  | .msg => 128

/-- A cell of `LogEventPayload`: a number, or a character of a string. -/
inductive Cell
  | timestampNs
  | sequence
  | char (f : Field) (i : ℕ)
  deriving DecidableEq

/-- What a cell holds. -/
abbrev Cell.Value : Cell → Type
  | .char _ _ => UInt8
  | _ => Int64

/-- The memory of an event. -/
abbrev Slot := ∀ c : Cell, c.Value

/-- A store to one cell. -/
abbrev Store := (c : Cell) × c.Value

/-- The memory behind some stores. -/
def Slot.apply (m : Slot) : List Store → Slot
  | [] => m
  | w :: ws => Slot.apply (Function.update m w.1 w.2) ws

/-- An event, with its strings. -/
structure Event where
  timestampNs : Int64
  sequence : Int64
  level : List UInt8
  msg : List UInt8
  deriving DecidableEq

/-- The string in an array, as `%s` reads it. -/
def Slot.string (m : Slot) (f : Field) : List UInt8 :=
  ((List.range f.size).map fun i => m (.char f i)).takeWhile fun b => b ≠ 0

/-- The event in the memory. -/
def Slot.event (m : Slot) : Event :=
  ⟨m .timestampNs, m .sequence, m.string .level, m.string .msg⟩

/-- The cells of an event. -/
def cells : List Cell :=
  .timestampNs :: .sequence :: ((List.range 16).map (.char .level) ++
    (List.range 128).map (.char .msg))

/-- Memory before anything is stored to it. -/
def Slot.blank : Slot
  | .timestampNs => 0
  | .sequence => 0
  | .char _ _ => 0

/-! ### Calls -/

/-- The arguments of `log_event`. -/
structure Call where
  level : CString
  msg : CString
  sequence : Int64

/-- The characters of a string stored from index `i` on. -/
def charStores (f : Field) (i : ℕ) : List UInt8 → List Store
  | [] => []
  | b :: bs => ⟨.char f i, b⟩ :: charStores f (i + 1) bs

/-- `snprintf(item->f, sizeof(item->f), "%s", s)`. -/
def snprintf (f : Field) (s : CString) : List Store :=
  charStores f 0 (s.bytes.take (f.size - 1) ++ [0])

/-- The stores of a call to its slot. -/
def Call.stores (c : Call) (timestampNs : Int64) : List Store :=
  ⟨.timestampNs, timestampNs⟩ :: ⟨.sequence, c.sequence⟩ ::
    (snprintf .level c.level ++ snprintf .msg c.msg)

/-- The event of a call: its strings are cut to their arrays. -/
def Call.record (c : Call) (timestampNs : Int64) : Event :=
  ⟨timestampNs, c.sequence, c.level.bytes.take 15, c.msg.bytes.take 127⟩

/-! ### The queue -/

/-- A thread, with the locals of `log_event` that are live. -/
inductive Pc
  /-- Outside of `log_event`. -/
  | idle
  /-- About to read the clock. -/
  | clock (c : Call)
  /-- About to try the lock. -/
  | spin (c : Call) (timestampNs : Int64)
  /-- About to load `tail`. -/
  | loadTail (c : Call) (timestampNs : Int64)
  /-- About to load `head`. -/
  | loadHead (c : Call) (timestampNs : Int64) (t : ℕ)
  /-- The stores to come; behind the last one, about to store `tail`. -/
  | write (c : Call) (timestampNs : Int64) (t : ℕ) (todo : List Store)
  /-- About to clear the lock. -/
  | unlock

/-- `logger_worker`, with its locals. -/
inductive WorkerPc
  /-- Not created. -/
  | unborn
  /-- About to open the file. -/
  | opening
  /-- In the condition of the loop, about to load `running`. -/
  | testRunning
  /-- In the condition, about to load `head`.  Nobody else stores to it, so it does not matter
  that C leaves the order of the two loads open. -/
  | testHead
  /-- In the condition, about to load `tail`. -/
  | testTail (h : ℕ)
  /-- In the body, about to load `head`. -/
  | loadHead
  /-- In the body, about to load `tail`. -/
  | loadTail (h : ℕ)
  /-- The cells still to be copied; behind the last one, about to store `head`. -/
  | copy (h : ℕ) (event : Slot) (todo : List Cell)
  /-- About to print. -/
  | print (event : Slot)
  /-- About to flush a batch. -/
  | flush
  /-- Behind the loop, about to flush and close the file. -/
  | closing
  /-- Returned. -/
  | exited

/-- The queue, the threads, the worker and its file, and the history. -/
structure Engine where
  items : ℕ → Slot
  head : ℕ
  tail : ℕ
  running : Bool
  lock : Bool
  threads : ℕ → Pc
  worker : WorkerPc
  unflushedCount : ℕ
  /-- What has reached the file for certain. -/
  written : List Event
  printed : List Event
  accepted : List Event

/-- `idx & (QUEUE_SIZE - 1)`. -/
def slot (idx : ℕ) : ℕ := maskWord queueSize idx

/-- A thread moves. -/
def Engine.goto (s : Engine) (i : ℕ) (pc : Pc) : Engine :=
  { s with threads := Function.update s.threads i pc }

/-- The events in the ring, from `head` up to `tail`. -/
def Engine.pending (s : Engine) : List Event :=
  (List.range (subWord 64 s.tail s.head)).map fun k =>
    (s.items (slot (addWord 64 s.head k))).event

/-- The event that the worker has taken out and not printed. -/
def Engine.taken (s : Engine) : List Event :=
  match s.worker with
  | .print event => [event.event]
  | _ => []

/-- The queue as `main` sets it up, over whatever the slots hold. -/
def initEngine (memory : ℕ → Slot) : Engine where
  items := memory
  head := 0
  tail := 0
  running := true
  lock := false
  threads _ := .idle
  worker := .opening
  unflushedCount := 0
  written := []
  printed := []
  accepted := []

/-- What happens next. -/
inductive Act
  /-- A thread calls `log_event`. -/
  | call (i : ℕ) (c : Call)
  /-- A thread reads the clock. -/
  | clock (i : ℕ) (timestampNs : Int64)
  /-- A thread takes its next step in `log_event`. -/
  | thread (i : ℕ)
  /-- The worker opens the file, or fails to. -/
  | openFile (ok : Bool)
  /-- The worker takes its next step. -/
  | worker
  /-- `running` is cleared. -/
  | stop

/-- The next step of a thread in `log_event`. -/
def threadStep (s : Engine) (i : ℕ) : Option Engine :=
  match s.threads i with
  | .spin c ts =>
    -- `atomic_flag_test_and_set`: the thread spins while the lock is set
    if s.lock then some s else some ({ s with lock := true }.goto i (.loadTail c ts))
  | .loadTail c ts => some (s.goto i (.loadHead c ts s.tail))
  | .loadHead c ts t =>
    if subWord 64 t s.head < queueSize then some (s.goto i (.write c ts t (c.stores ts)))
    else some (s.goto i .unlock)
  | .write c ts t (w :: todo) =>
    some ({ s with
      items := Function.update s.items (slot t) ((s.items (slot t)).apply [w]) }.goto i
        (.write c ts t todo))
  | .write c ts t [] =>
    some ({ s with
      tail := addWord 64 t 1, accepted := s.accepted ++ [c.record ts] }.goto i .unlock)
  | .unlock => some ({ s with lock := false }.goto i .idle)
  | _ => none

/-- The next step of the worker. -/
def workerStep (s : Engine) : Option Engine :=
  match s.worker with
  | .testRunning => some { s with worker := if s.running then .loadHead else .testHead }
  | .testHead => some { s with worker := .testTail s.head }
  | .testTail h => some { s with worker := if h ≠ s.tail then .loadHead else .closing }
  | .loadHead => some { s with worker := .loadTail s.head }
  | .loadTail h =>
    -- `sched_yield` and `continue` on an empty queue
    some { s with worker := if h = s.tail then .testRunning else .copy h .blank cells }
  | .copy h event (c :: todo) =>
    some { s with
      worker := .copy h (Function.update event c (s.items (slot h) c)) todo }
  | .copy h event [] => some { s with head := addWord 64 h 1, worker := .print event }
  | .print event =>
    some { s with
      printed := s.printed ++ [event.event]
      unflushedCount := s.unflushedCount + 1
      worker := if batchFlushCount ≤ s.unflushedCount + 1 then .flush else .testRunning }
  | .flush => some { s with written := s.printed, unflushedCount := 0, worker := .testRunning }
  | .closing => some { s with written := s.printed, worker := .exited }
  | _ => none

/-- One step of a thread or of the worker, or `running` is cleared. -/
def step (s : Engine) : Act → Option Engine
  | .call i c =>
    match s.threads i with
    | .idle => some (s.goto i (.clock c))
    | _ => none
  | .clock i ts =>
    match s.threads i with
    | .clock c => some (s.goto i (.spin c ts))
    | _ => none
  | .thread i => threadStep s i
  | .openFile ok =>
    match s.worker with
    | .opening => some { s with worker := if ok then .testRunning else .exited }
    | _ => none
  | .worker => workerStep s
  | .stop => some { s with running := false }

/-- The queue under every interleaving of its threads and the worker. -/
def machine : Machine Engine Act where
  init s := ∃ memory, s = initEngine memory
  step := step

theorem Engine.goto_self (s : Engine) (i : ℕ) (pc : Pc) : (s.goto i pc).threads i = pc := by
  simp only [Engine.goto, Function.update_self]

theorem Engine.goto_of_ne (s : Engine) {i j : ℕ} (h : j ≠ i) (pc : Pc) :
    (s.goto i pc).threads j = s.threads j := by
  simp only [Engine.goto, Function.update_of_ne h]

/-! ### Strings -/

section Strings

variable {m : Slot} {f : Field} {c : Cell} {ws ws' : List Store}

theorem Slot.apply_append : m.apply (ws ++ ws') = (m.apply ws).apply ws' := by
  induction ws generalizing m with
  | nil => rfl
  | cons w ws ih => exact ih

/-- A cell that nothing is stored to keeps its value. -/
theorem Slot.apply_of_forall_ne (h : ∀ w ∈ ws, w.1 ≠ c) : m.apply ws c = m c := by
  induction ws generalizing m with
  | nil => rfl
  | cons w ws ih =>
    obtain ⟨hw, hws⟩ := List.forall_mem_cons.mp h
    rw [Slot.apply, ih hws, Function.update_of_ne (Ne.symm hw)]

theorem cell_of_mem_charStores {w : Store} : ∀ {bs : List UInt8} {i : ℕ},
    w ∈ charStores f i bs → ∃ j, i ≤ j ∧ w.1 = .char f j := by
  intro bs
  induction bs with
  | nil => exact nofun
  | cons b bs ih =>
    intro i h
    rcases List.mem_cons.mp h with rfl | h
    · exact ⟨i, le_rfl, rfl⟩
    · obtain ⟨j, hj, hw⟩ := ih h
      exact ⟨j, by omega, hw⟩

/-- The characters of a string behind its stores. -/
theorem Slot.apply_charStores : ∀ (bs : List UInt8) (i : ℕ) {m : Slot} {j : ℕ}, i ≤ j →
    m.apply (charStores f i bs) (.char f j) = (bs[j - i]?).getD (m (.char f j)) := by
  intro bs
  induction bs with
  | nil => exact fun i m j _ => rfl
  | cons b bs ih =>
    intro i m j hij
    rw [charStores, Slot.apply]
    rcases Nat.eq_or_lt_of_le hij with rfl | hlt
    · -- the first character is not stored to again
      have hlater : ∀ w ∈ charStores f (i + 1) bs, w.1 ≠ .char f i := by
        intro w hw heq
        obtain ⟨j, hj, hcell⟩ := cell_of_mem_charStores hw
        rw [hcell] at heq
        cases heq
        omega
      rw [Slot.apply_of_forall_ne hlater, Function.update_self, Nat.sub_self]
      rfl
    · have hne : Cell.char f j ≠ .char f i := by
        intro heq
        cases heq
        omega
      have hsub : j - i = j - (i + 1) + 1 := by omega
      rw [ih (i + 1) hlt, hsub, List.getElem?_cons_succ, Function.update_of_ne hne]

/-- A row that begins with a string and its null is read as the string. -/
theorem takeWhile_of_string {bs : List UInt8} {n : ℕ} {old : ℕ → UInt8} (hno : 0 ∉ bs)
    (hlen : bs.length < n) :
    (((List.range n).map fun j => ((bs ++ [0])[j]?).getD (old j)).takeWhile fun b => b ≠ 0) =
      bs := by
  obtain ⟨k, rfl⟩ : ∃ k, n = (bs ++ [0]).length + k := ⟨n - (bs.length + 1), by simp; omega⟩
  have hfirst : ((List.range (bs ++ [0]).length).map fun j => ((bs ++ [0])[j]?).getD (old j)) =
      bs ++ [0] := by
    refine List.ext_getElem (by simp) fun j hj hj' => ?_
    rw [List.getElem_map, List.getElem_range, List.getElem?_eq_getElem hj']
    rfl
  have hall : ∀ b ∈ bs, decide (b ≠ 0) = true := fun b hb =>
    decide_eq_true fun heq => hno (heq ▸ hb)
  rw [List.range_add, List.map_append, hfirst, List.append_assoc,
    List.takeWhile_append_of_pos hall, List.singleton_append, List.takeWhile_cons_of_neg (by simp),
    List.append_nil]

/-- `snprintf` leaves its string, cut to the array. -/
theorem Slot.string_snprintf (m : Slot) (f : Field) (s : CString) :
    (m.apply (snprintf f s)).string f = s.bytes.take (f.size - 1) := by
  have hno : 0 ∉ s.bytes.take (f.size - 1) := fun h => s.noNul (List.mem_of_mem_take h)
  have hlen : (s.bytes.take (f.size - 1)).length < f.size := by
    rw [List.length_take]
    cases f <;> simp only [Field.size] <;> omega
  have hchars : ∀ j, m.apply (snprintf f s) (.char f j) =
      ((s.bytes.take (f.size - 1) ++ [0])[j]?).getD (m (.char f j)) :=
    fun j => Slot.apply_charStores _ 0 (Nat.zero_le j)
  rw [Slot.string]
  simp only [hchars]
  exact takeWhile_of_string hno hlen

/-- A string is not touched by stores to other cells. -/
theorem Slot.string_of_forall_ne (h : ∀ w ∈ ws, ∀ i, w.1 ≠ .char f i) :
    (m.apply ws).string f = m.string f := by
  have hchars : ∀ i, m.apply ws (.char f i) = m (.char f i) := fun i =>
    Slot.apply_of_forall_ne fun w hw => h w hw i
  rw [Slot.string, Slot.string]
  simp only [hchars]

/-- **The stores of a call leave its event in any slot.** -/
theorem Slot.event_record (m : Slot) (c : Call) (ts : Int64) :
    (m.apply (c.stores ts)).event = c.record ts := by
  -- the stores of a string are to its characters
  have hcells : ∀ (f : Field) (s : CString), ∀ w ∈ snprintf f s, ∃ i, w.1 = .char f i :=
    fun f s w hw => by
      obtain ⟨j, -, hj⟩ := cell_of_mem_charStores hw
      exact ⟨j, hj⟩
  have hnumber : ∀ c' : Cell, (∀ f i, c' ≠ .char f i) → ∀ m' : Slot,
      m'.apply (snprintf .level c.level ++ snprintf .msg c.msg) c' = m' c' := by
    intro c' hc' m'
    refine Slot.apply_of_forall_ne (List.forall_mem_append.mpr ⟨fun w hw heq => ?_,
      fun w hw heq => ?_⟩)
    · obtain ⟨i, hi⟩ := hcells _ _ w hw
      exact hc' _ i (heq.symm.trans hi)
    · obtain ⟨i, hi⟩ := hcells _ _ w hw
      exact hc' _ i (heq.symm.trans hi)
  have hmsg : ∀ w ∈ snprintf .msg c.msg, ∀ i, w.1 ≠ .char .level i := by
    intro w hw i heq
    obtain ⟨j, hj⟩ := hcells _ _ w hw
    rw [hj] at heq
    cases heq
  rw [Call.stores, Slot.apply, Slot.apply]
  refine Event.mk.injEq .. |>.mpr ⟨?_, ?_, ?_, ?_⟩
  · rw [hnumber .timestampNs fun _ _ => by simp]
    exact (Function.update_of_ne (by simp) _ _).trans (Function.update_self _ _ _)
  · rw [hnumber .sequence fun _ _ => by simp]
    exact Function.update_self _ _ _
  · rw [Slot.apply_append, Slot.string_of_forall_ne hmsg, Slot.string_snprintf]
    rfl
  · rw [Slot.apply_append, Slot.string_snprintf]
    rfl

/-- The event depends on the cells of an event alone. -/
theorem Slot.event_congr {m m' : Slot} (h : ∀ c ∈ cells, m c = m' c) : m.event = m'.event := by
  have hchar : ∀ f : Field, ∀ i < f.size, Cell.char f i ∈ cells := by
    intro f i hi
    refine .tail _ (.tail _ (List.mem_append.mpr ?_))
    cases f with
    | level => exact .inl (List.mem_map.mpr ⟨i, List.mem_range.mpr hi, rfl⟩)
    | msg => exact .inr (List.mem_map.mpr ⟨i, List.mem_range.mpr hi, rfl⟩)
  have hstring : ∀ f : Field, m.string f = m'.string f := by
    intro f
    rw [Slot.string, Slot.string]
    congr 1
    exact List.map_congr_left fun i hi => h _ (hchar f i (List.mem_range.mp hi))
  rw [Slot.event, Slot.event, hstring, hstring, h _ (.head _), h _ (.tail _ (.head _))]

end Strings

end Logger
end SovereignSeed
