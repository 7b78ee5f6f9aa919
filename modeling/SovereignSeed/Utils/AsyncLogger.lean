import SovereignSeed.Foundation.Fifo
import SovereignSeed.Foundation.Machine
import SovereignSeed.Python.JsonBytes

/-!
# The logger of the Python engine

`AsyncJSONLogger` of `src/utils/logger.py`: threads put records into a bounded queue, a
worker takes them out and writes them, a line each, and `close` tells the worker to stop
and waits for it.  The worker reads the stop event and the queue separately, and waits at
the queue for a while.

A method of `queue.Queue` takes effect under the lock of the queue, so each is one step.
What is written stands in the buffer of the file until it is flushed, and any part of it
may be in the file before.  Opening, writing, flushing and closing can fail, which ends the
worker.

`calls` is history, and so is `atClose`: the records accepted when `close` was entered.

## Main definitions

* `logItem`, `line` — a record in the queue, and in the file.
* `WorkerPc`, `ClosePc` — where the worker is, and the thread that closes.
* `AsyncJSONLogger`, `init`, `step`, `machine` — the logger under every interleaving.
-/

namespace SovereignSeed
namespace Utils

open Python Json

/-- The `maxsize` of the queue. -/
def maxsize : ℕ := 10000

/-- `json.dumps(payload)` in `log`, or `none` where it raises; `kwargs` can replace the
timestamp. -/
def logItem (timestamp : PyFloat) (level message : Value) (kwargs : Members) : Option PyStr :=
  (Value.obj (dictOf ([(text "timestamp", .float timestamp), (text "level", level),
    (text "message", message)] ++ kwargs))).dumps .spaced

/-- What `f.write(item + "\n")` adds to the file. -/
def line (item : PyStr) : Bytes := utf8 (item ++ text "\n")

/-- Where the worker is in `_process_queue`. -/
inductive WorkerPc
  /-- About to open the file. -/
  | opening
  /-- About to read the stop event. -/
  | testStop
  /-- About to read whether the queue is empty. -/
  | testEmpty
  /-- In `get`. -/
  | get
  /-- About to write. -/
  | write (item : PyStr)
  /-- About to flush. -/
  | flush
  /-- About to call `task_done`. -/
  | taskDone
  /-- Behind the loop, about to close the file. -/
  | closing
  | ended
  deriving DecidableEq

/-- Where the thread that closes is. -/
inductive ClosePc
  /-- `close` has not been called. -/
  | idle
  /-- About to set the stop event. -/
  | setStop
  /-- In `join`. -/
  | join
  | returned
  deriving DecidableEq

/-- The logger, its threads and its file. -/
structure AsyncJSONLogger (T : Type*) where
  queue : List PyStr
  /-- `unfinished_tasks` of the queue. -/
  unfinishedTasks : ℕ
  stopEvent : Bool
  worker : WorkerPc
  closer : ClosePc
  /-- The item that a thread in `log` is about to put. -/
  clients : T → Option PyStr
  file : Bytes
  /-- What is written and not yet in the file. -/
  buffer : Bytes
  /-- The calls on the queue so far. -/
  calls : List (Fifo.Call PyStr)
  /-- What the queue had accepted when `close` was entered. -/
  atClose : List PyStr

/-- A new logger over a file with some bytes in it. -/
def init (T : Type*) (before : Bytes) : AsyncJSONLogger T where
  queue := []
  unfinishedTasks := 0
  stopEvent := false
  worker := .opening
  closer := .idle
  clients _ := none
  file := before
  buffer := []
  calls := []
  atClose := []

/-- What happens next. -/
inductive Act (T : Type*)
  /-- A thread calls `log`, and gets to the queue if `json.dumps` does not raise. -/
  | log (t : T) (timestamp : PyFloat) (level message : Value) (kwargs : Members)
  /-- The thread calls `put_nowait`. -/
  | put (t : T)
  /-- The worker takes its next step, other than a write. -/
  | work
  /-- The time of `get` is over. -/
  | expire
  /-- The worker writes, and so many bytes of the buffer get into the file. -/
  | write (spilled : ℕ)
  /-- What the worker does with the file fails, with so many bytes getting there. -/
  | fail (spilled : ℕ)
  /-- A thread calls `close`. -/
  | close
  /-- That thread takes its next step. -/
  | closeStep

/-- The bytes that the worker is about to write. -/
def WorkerPc.pending : WorkerPc → Bytes
  | .write item => line item
  | _ => []

/-- The worker has the file in use, so that it can fail. -/
def WorkerPc.usesFile : WorkerPc → Bool
  | .opening => true
  | .write _ => true
  | .flush => true
  | .closing => true
  | _ => false

/-- The next step of the worker, other than a write. -/
def workStep {T : Type*} (s : AsyncJSONLogger T) : Option (AsyncJSONLogger T) :=
  match s.worker with
  | .opening => some { s with worker := .testStop }
  | .testStop => some { s with worker := if s.stopEvent then .testEmpty else .get }
  | .testEmpty => some { s with worker := if s.queue = [] then .closing else .get }
  | .get =>
    match s.queue with
    | [] => none
    | item :: rest =>
      some { s with queue := rest, worker := .write item, calls := s.calls ++ [.pop (some item)] }
  | .write _ => none
  | .flush => some { s with file := s.file ++ s.buffer, buffer := [], worker := .taskDone }
  | .taskDone =>
    -- called too often, it raises, and the file is closed on the way out
    if s.unfinishedTasks = 0 then some { s with worker := .closing }
    else some { s with unfinishedTasks := s.unfinishedTasks - 1, worker := .testStop }
  | .closing => some { s with file := s.file ++ s.buffer, buffer := [], worker := .ended }
  | .ended => none

/-- One step of a thread, of the worker, or of the thread that closes. -/
def step {T : Type*} [DecidableEq T] (s : AsyncJSONLogger T) :
    Act T → Option (AsyncJSONLogger T)
  | .log t timestamp level message kwargs =>
    match s.clients t with
    | none =>
      some { s with
        clients := Function.update s.clients t (logItem timestamp level message kwargs) }
    | some _ => none
  | .put t =>
    match s.clients t with
    | some item =>
      if s.queue.length < maxsize then
        some { s with
          queue := s.queue ++ [item]
          unfinishedTasks := s.unfinishedTasks + 1
          clients := Function.update s.clients t none
          calls := s.calls ++ [.push item true] }
      else
        -- `queue.Full` is passed over
        some { s with
          clients := Function.update s.clients t none, calls := s.calls ++ [.push item false] }
    | none => none
  | .work => workStep s
  | .expire =>
    match s.worker, s.queue with
    | .get, [] => some { s with worker := .testStop, calls := s.calls ++ [.pop none] }
    | _, _ => none
  | .write spilled =>
    match s.worker with
    | .write item =>
      some { s with
        file := s.file ++ (s.buffer ++ line item).take spilled
        buffer := (s.buffer ++ line item).drop spilled
        worker := .flush }
    | _ => none
  | .fail spilled =>
    if s.worker.usesFile then
      some { s with
        file := s.file ++ (s.buffer ++ s.worker.pending).take spilled
        buffer := []
        worker := .ended }
    else none
  | .close =>
    match s.closer with
    | .idle => some { s with closer := .setStop, atClose := Fifo.pushed s.calls }
    | _ => none
  | .closeStep =>
    match s.closer with
    | .setStop => some { s with stopEvent := true, closer := .join }
    | .join => if s.worker = .ended then some { s with closer := .returned } else none
    | _ => none

/-- The logger under every interleaving. -/
def machine (T : Type*) [DecidableEq T] : Machine (AsyncJSONLogger T) (Act T) where
  init s := ∃ before, s = init T before
  step := step

end Utils
end SovereignSeed
