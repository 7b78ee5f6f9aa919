import SovereignSeed.Logger.Queue

/-!
# Nothing is lost on the way

`Rep s lo hi` says that the queue stands at the positions from `lo` to `hi` of an unbounded
sequence.  The thread that holds the lock is the only one that writes: its slot lies
outside of the ring, and what it has still to store makes the slot its event.  The worker
copies a slot inside the ring, so the two never meet.

## Main definitions

* `Rep` — the invariant, with positions that do not wrap.

## Main results

* `rep_step`, `rep_of_reachable` — **every reachable queue stands somewhere.**
* `pipeline` — **what is printed, taken out and in the ring is what was accepted, in
  order; an event is dropped only if the ring is full.**
-/

namespace SovereignSeed
namespace Logger

/-- The thread has the lock. -/
def Pc.holds : Pc → Bool
  | .loadTail _ _ => true
  | .loadHead _ _ _ => true
  | .write _ _ _ _ => true
  | .unlock => true
  | _ => false

/-- The event in each slot. -/
def Engine.ring (s : Engine) (k : ℕ) : Event := (s.items k).event

/-- What a thread knows. -/
def PcInv (s : Engine) (lo hi : ℕ) : Pc → Prop
  | .loadHead _ _ t => t = s.tail
  | .write c ts t todo =>
    t = s.tail ∧ hi < lo + queueSize ∧ ((s.items (slot t)).apply todo).event = c.record ts
  | _ => True

/-- What the worker knows. -/
def WorkerInv (s : Engine) (lo hi : ℕ) : WorkerPc → Prop
  | .testTail h => h = s.head
  | .loadTail h => h = s.head
  | .copy h event todo =>
    h = s.head ∧ lo < hi ∧ ∀ c ∈ cells, c ∈ todo ∨ event c = s.items (slot h) c
  | _ => True

/-- The queue stands at the positions from `lo` to `hi`. -/
structure Rep (s : Engine) (lo hi : ℕ) : Prop where
  head : s.head = lo % 2 ^ 64
  tail : s.tail = hi % 2 ^ 64
  le : lo ≤ hi
  lap : hi ≤ lo + queueSize
  log : s.printed ++ s.taken ++ window queueSize s.ring lo hi = s.accepted
  worker : WorkerInv s lo hi s.worker
  thread : ∀ i, PcInv s lo hi (s.threads i)
  held : ∀ i, (s.threads i).holds = true → s.lock = true
  unique : ∀ i j, (s.threads i).holds = true → (s.threads j).holds = true → i = j

variable {s s' : Engine} {lo hi : ℕ} {i : ℕ} {pc : Pc}

/-! ### Positions -/

theorem slot_mod (p : ℕ) : slot (p % 2 ^ 64) = p % queueSize :=
  maskWord_mod (show 17 ≤ 64 by decide) p

theorem Rep.room (h : Rep s lo hi) : hi - lo < 2 ^ 64 := by
  have hlap := h.lap
  have hsize : queueSize < 2 ^ 64 := by decide
  omega

/-- The difference of the counters is the number of events in the ring. -/
theorem Rep.distance (h : Rep s lo hi) : subWord 64 s.tail s.head = hi - lo := by
  rw [h.head, h.tail, subWord_mod h.le h.room]

/-- The counters are equal exactly if the ring is empty. -/
theorem Rep.head_eq_tail_iff (h : Rep s lo hi) : s.head = s.tail ↔ lo = hi := by
  constructor
  · intro heq
    have hdistance := h.distance
    rw [heq, subWord, Nat.add_sub_cancel_left, Nat.mod_self] at hdistance
    have hle := h.le
    omega
  · rintro rfl
    rw [h.head, h.tail]

/-- **The events between the counters are those of the window.** -/
theorem Rep.pending_eq (h : Rep s lo hi) : s.pending = window queueSize s.ring lo hi := by
  rw [Engine.pending, h.distance, window, List.range'_eq_map_range, List.map_map]
  refine List.map_congr_left fun k _ => ?_
  rw [h.head, addWord_mod, slot_mod]
  rfl

/-! ### Threads -/

theorem pcInv_of_not_holds (h : pc.holds = false) : PcInv s lo hi pc := by
  cases pc with
  | loadHead => cases h
  | write => cases h
  | _ => trivial

/-- What a thread knows stays true, if it has not the lock or its own slot and `tail` stay. -/
theorem PcInv.congr {lo' : ℕ} (h : PcInv s lo hi pc) (hlo : lo ≤ lo')
    (hsame : pc.holds = true → s'.tail = s.tail ∧ s'.items = s.items) : PcInv s' lo' hi pc := by
  cases pc with
  | loadHead c ts t => exact h.trans (hsame rfl).1.symm
  | write c ts t todo =>
    obtain ⟨ht, hroom, hevent⟩ := h
    obtain ⟨htail, hitems⟩ := hsame rfl
    refine ⟨ht.trans htail.symm, by omega, ?_⟩
    rw [hitems]
    exact hevent
  | _ => trivial

/-- A thread moves, and may set or clear the lock. -/
theorem Rep.goto (h : Rep s lo hi) (lock : Bool) (hpc : PcInv s lo hi pc)
    (hheld : pc.holds = true → lock = true ∧ ∀ j, j ≠ i → (s.threads j).holds = false)
    (hothers : ∀ j, j ≠ i → (s.threads j).holds = true → lock = true) :
    Rep ({ s with lock := lock }.goto i pc) lo hi := by
  have hthread : ∀ j, j ≠ i → ({ s with lock := lock }.goto i pc).threads j = s.threads j :=
    fun j hj => Engine.goto_of_ne { s with lock := lock } hj pc
  have hself : ({ s with lock := lock }.goto i pc).threads i = pc :=
    Engine.goto_self { s with lock := lock } i pc
  refine ⟨h.head, h.tail, h.le, h.lap, h.log, h.worker, fun j => ?_, fun j hj => ?_,
    fun j k hj hk => ?_⟩
  · by_cases hji : j = i
    · subst hji
      rw [hself]
      exact hpc
    · rw [hthread j hji]
      exact h.thread j
  · by_cases hji : j = i
    · subst hji
      rw [hself] at hj
      exact (hheld hj).1
    · rw [hthread j hji] at hj
      exact hothers j hji hj
  · by_cases hji : j = i
    · by_cases hki : k = i
      · exact hji.trans hki.symm
      · subst hji
        rw [hself] at hj
        rw [hthread k hki, (hheld hj).2 k hki] at hk
        cases hk
    · by_cases hki : k = i
      · subst hki
        rw [hself] at hk
        rw [hthread j hji, (hheld hk).2 j hji] at hj
        cases hj
      · rw [hthread j hji] at hj
        rw [hthread k hki] at hk
        exact h.unique j k hj hk

/-- The thread that has the lock is alone. -/
theorem Rep.alone (h : Rep s lo hi) (hi' : (s.threads i).holds = true) (j : ℕ) (hj : j ≠ i) :
    (s.threads j).holds = false := by
  by_contra hholds
  rw [Bool.not_eq_false] at hholds
  exact hj (h.unique j i hholds hi')

/-- While the thread that has the lock stands aside, no thread knows anything. -/
theorem Rep.aside (h : Rep s lo hi) (hi' : (s.threads i).holds = true) {lo' hi'' : ℕ} (j : ℕ) :
    PcInv s' lo' hi'' ((s.goto i .unlock).threads j) := by
  by_cases hj : j = i
  · subst hj
    rw [Engine.goto_self]
    trivial
  · rw [Engine.goto_of_ne s hj]
    exact pcInv_of_not_holds (h.alone hi' j hj)

/-- The thread that has the lock moves on with it. -/
theorem Rep.advance (h : Rep s lo hi) (hi' : (s.threads i).holds = true)
    (hpc : PcInv s lo hi pc) : Rep (s.goto i pc) lo hi :=
  h.goto s.lock hpc (fun _ => ⟨h.held i hi', h.alone hi'⟩)
    fun j _ hholds => h.held j hholds

/-- A slot outside of the ring is written to. -/
theorem Rep.putItem (h : Rep s lo hi) (m : Slot) (hroom : hi < lo + queueSize)
    (hthread : ∀ j, PcInv { s with items := Function.update s.items (hi % queueSize) m } lo hi
      (s.threads j)) :
    Rep { s with items := Function.update s.items (hi % queueSize) m } lo hi := by
  refine ⟨h.head, h.tail, h.le, h.lap, ?_, ?_, hthread, h.held, h.unique⟩
  · have hring : (fun k => (Function.update s.items (hi % queueSize) m k).event) =
        Function.update s.ring (hi % queueSize) m.event := by
      funext k
      by_cases hk : k = hi % queueSize
      · subst hk
        rw [Function.update_self, Function.update_self]
      · rw [Function.update_of_ne hk, Function.update_of_ne hk]
        rfl
    have hlog := h.log
    rw [← window_write m.event (le_refl hi) hroom, ← hring] at hlog
    exact hlog
  · -- the worker copies a slot inside of it
    have hworker := h.worker
    dsimp only
    cases hw : s.worker with
    | copy hd event todo =>
      rw [hw] at hworker
      obtain ⟨hhd, hlt, hcopied⟩ := hworker
      have hne : slot hd ≠ hi % queueSize := by
        rw [hhd, h.head, slot_mod]
        intro heq
        have hsame := eq_of_mod_eq heq h.le (by omega)
        omega
      refine ⟨hhd, hlt, fun c hc => ?_⟩
      dsimp only
      rw [Function.update_of_ne hne]
      exact hcopied c hc
    | testTail hd =>
      rw [hw] at hworker
      exact hworker
    | loadTail hd =>
      rw [hw] at hworker
      exact hworker
    | _ => trivial

/-- The slot behind the ring becomes part of it. -/
theorem Rep.publish (h : Rep s lo hi) {e : Event} (hroom : hi < lo + queueSize)
    (he : s.ring (hi % queueSize) = e)
    (hthread : ∀ j, PcInv { s with tail := addWord 64 s.tail 1, accepted := s.accepted ++ [e] } lo
      (hi + 1) (s.threads j)) :
    Rep { s with tail := addWord 64 s.tail 1, accepted := s.accepted ++ [e] } lo (hi + 1) := by
  refine ⟨h.head, ?_, ?_, ?_, ?_, ?_, hthread, h.held, h.unique⟩
  · dsimp only
    rw [h.tail, addWord_mod]
  · have hle := h.le
    omega
  · omega
  · have hwindow := window_succ queueSize s.ring h.le
    have hlog : s.printed ++ s.taken ++ window queueSize s.ring lo (hi + 1) =
        s.accepted ++ [e] := by
      rw [hwindow, ← List.append_assoc, h.log, he]
    exact hlog
  · have hworker := h.worker
    dsimp only
    cases hw : s.worker with
    | copy hd event todo =>
      rw [hw] at hworker
      exact ⟨hworker.1, by have := hworker.2.1; omega, hworker.2.2⟩
    | testTail hd =>
      rw [hw] at hworker
      exact hworker
    | loadTail hd =>
      rw [hw] at hworker
      exact hworker
    | _ => trivial

/-- **A step of a thread keeps the queue in order.** -/
theorem rep_threadStep (h : Rep s lo hi) (hstep : threadStep s i = some s') :
    ∃ hi', Rep s' lo hi' := by
  unfold threadStep at hstep
  split at hstep
  · next c ts hpc =>
    split at hstep
    · cases hstep
      exact ⟨hi, h⟩
    · next hlock =>
      -- nobody has the lock
      cases hstep
      have hfree : ∀ j, (s.threads j).holds = false := by
        intro j
        by_contra hholds
        rw [Bool.not_eq_false] at hholds
        exact hlock (h.held j hholds)
      exact ⟨hi, h.goto true trivial (fun _ => ⟨rfl, fun j _ => hfree j⟩) fun _ _ _ => rfl⟩
  · next c ts hpc =>
    cases hstep
    exact ⟨hi, h.advance (by rw [hpc]; rfl) rfl⟩
  · next c ts t hpc =>
    have hholds : (s.threads i).holds = true := by rw [hpc]; rfl
    have ht := h.thread i
    rw [hpc] at ht
    obtain rfl : t = s.tail := ht
    split at hstep
    · next hroom =>
      cases hstep
      refine ⟨hi, h.advance hholds ⟨rfl, ?_, Slot.event_record _ c ts⟩⟩
      have hle := h.le
      rw [h.distance] at hroom
      show hi < lo + queueSize
      omega
    · cases hstep
      exact ⟨hi, h.advance hholds trivial⟩
  · next c ts t w todo hpc =>
    cases hstep
    have hholds : (s.threads i).holds = true := by rw [hpc]; rfl
    have hinv := h.thread i
    rw [hpc] at hinv
    obtain ⟨ht, hroom, hevent⟩ := hinv
    have hslot : slot t = hi % queueSize := by rw [ht, h.tail, slot_mod]
    -- the thread aside, the slot is written to
    have haside : Rep (s.goto i .unlock) lo hi := h.advance hholds trivial
    have hput := haside.putItem ((s.items (slot t)).apply [w]) hroom (h.aside hholds)
    rw [← hslot] at hput
    have hback : Rep ({ s.goto i .unlock with
        items := Function.update s.items (slot t) ((s.items (slot t)).apply [w]) }.goto i
          (.write c ts t todo)) lo hi := by
      apply hput.advance
      · dsimp only [Engine.goto]
        rw [Function.update_self]
        rfl
      · refine ⟨ht, hroom, ?_⟩
        dsimp only [Engine.goto]
        rw [Function.update_self]
        exact hevent
    refine ⟨hi, ?_⟩
    simpa only [Engine.goto, Function.update_idem] using hback
  · next c ts t hpc =>
    cases hstep
    have hholds : (s.threads i).holds = true := by rw [hpc]; rfl
    have hinv := h.thread i
    rw [hpc] at hinv
    obtain ⟨rfl, hroom, hevent⟩ := hinv
    have hslot : slot s.tail = hi % queueSize := by rw [h.tail, slot_mod]
    have haside : Rep (s.goto i .unlock) lo hi := h.advance hholds trivial
    exact ⟨hi + 1, haside.publish hroom (hslot ▸ hevent) (h.aside hholds)⟩
  · next hpc =>
    cases hstep
    have hholds : (s.threads i).holds = true := by rw [hpc]; rfl
    refine ⟨hi, h.goto false trivial (fun hgoal => by cases hgoal) fun j hj hj' => ?_⟩
    rw [h.alone hholds j hj] at hj'
    cases hj'
  · cases hstep

/-! ### The worker -/

theorem taken_eq_nil (h : ∀ event, s.worker ≠ .print event) : s.taken = [] := by
  rw [Engine.taken]
  split
  · next event hw => exact absurd hw (h event)
  · rfl

/-- The worker moves, with nothing taken out before or behind. -/
theorem Rep.work (h : Rep s lo hi) {w : WorkerPc} (hw : WorkerInv s lo hi w)
    (hbefore : ∀ event, s.worker ≠ .print event) (hbehind : ∀ event, w ≠ .print event) :
    Rep { s with worker := w } lo hi := by
  have hlog := h.log
  rw [taken_eq_nil hbefore] at hlog
  refine ⟨h.head, h.tail, h.le, h.lap, ?_, hw, h.thread, h.held, h.unique⟩
  rw [taken_eq_nil hbehind]
  exact hlog

/-- The worker is done with its copy, which is the first event of the ring. -/
theorem Rep.consume (h : Rep s lo hi) {event : Slot} (hw : s.worker = .copy s.head event [])
    (hlt : lo < hi) (hcopied : ∀ c ∈ cells, event c = s.items (slot s.head) c) :
    Rep { s with head := addWord 64 s.head 1, worker := .print event } (lo + 1) hi := by
  have hbefore : s.taken = [] := by rw [Engine.taken, hw]
  have hevent : event.event = s.ring (lo % queueSize) := by
    rw [Slot.event_congr hcopied, h.head, slot_mod]
    rfl
  have hlog := h.log
  rw [hbefore, List.append_nil, window_cons queueSize s.ring hlt, ← hevent] at hlog
  refine ⟨?_, h.tail, hlt, ?_, ?_, trivial, fun i => ?_, h.held, h.unique⟩
  · dsimp only
    rw [h.head, addWord_mod]
  · have hlap := h.lap
    omega
  · have htaken : s.printed ++ [event.event] ++ window queueSize s.ring (lo + 1) hi =
        s.accepted := by
      rw [List.append_assoc, List.singleton_append]
      exact hlog
    exact htaken
  · exact (h.thread i).congr (Nat.le_succ lo) fun _ => ⟨rfl, rfl⟩

/-- What has been taken out is printed. -/
theorem Rep.printed (h : Rep s lo hi) {event : Slot} (hw : s.worker = .print event) (n : ℕ)
    {w : WorkerPc} (hinv : WorkerInv s lo hi w) (hbehind : ∀ event', w ≠ .print event') :
    Rep { s with
      printed := s.printed ++ [event.event], unflushedCount := n, worker := w } lo hi := by
  have hbefore : s.taken = [event.event] := by rw [Engine.taken, hw]
  have hlog := h.log
  rw [hbefore] at hlog
  refine ⟨h.head, h.tail, h.le, h.lap, ?_, hinv, h.thread, h.held, h.unique⟩
  rw [taken_eq_nil hbehind, List.append_nil]
  exact hlog

/-- **A step of the worker keeps the queue in order.** -/
theorem rep_workerStep (h : Rep s lo hi) (hstep : workerStep s = some s') :
    ∃ lo', Rep s' lo' hi := by
  have hinv := h.worker
  unfold workerStep at hstep
  split at hstep
  · next hw =>
    cases hstep
    refine ⟨lo, h.work ?_ (by rw [hw]; nofun) ?_⟩
    · split <;> trivial
    · split <;> nofun
  · next hw =>
    cases hstep
    exact ⟨lo, h.work rfl (by rw [hw]; nofun) nofun⟩
  · next hd hw =>
    cases hstep
    refine ⟨lo, h.work ?_ (by rw [hw]; nofun) ?_⟩
    · split <;> trivial
    · split <;> nofun
  · next hw =>
    cases hstep
    exact ⟨lo, h.work rfl (by rw [hw]; nofun) nofun⟩
  · next hd hw =>
    cases hstep
    rw [hw] at hinv
    obtain rfl : hd = s.head := hinv
    refine ⟨lo, h.work ?_ (by rw [hw]; nofun) ?_⟩
    · split
      · trivial
      · next hne =>
        -- nothing is copied yet, and the ring is not empty
        have hlt : lo < hi := Nat.lt_of_le_of_ne h.le fun heq => hne (h.head_eq_tail_iff.mpr heq)
        exact ⟨rfl, hlt, fun c hc => .inl hc⟩
    · split <;> nofun
  · next hd event c todo hw =>
    cases hstep
    rw [hw] at hinv
    obtain ⟨hhd, hlt, hcopied⟩ := hinv
    refine ⟨lo, h.work ⟨hhd, hlt, fun c' hc' => ?_⟩ (by rw [hw]; nofun) nofun⟩
    by_cases heq : c' = c
    · subst heq
      exact .inr (Function.update_self _ _ _)
    · rw [Function.update_of_ne heq]
      exact (hcopied c' hc').imp_left fun hmem => (List.mem_cons.mp hmem).resolve_left heq
  · next hd event hw =>
    cases hstep
    rw [hw] at hinv
    obtain ⟨rfl, hlt, hcopied⟩ := hinv
    exact ⟨lo + 1, h.consume hw hlt fun c hc => (hcopied c hc).resolve_left List.not_mem_nil⟩
  · next event hw =>
    cases hstep
    refine ⟨lo, h.printed hw _ ?_ ?_⟩
    · split <;> trivial
    · split <;> nofun
  · next hw =>
    cases hstep
    have hflush := h.work (w := .testRunning) trivial (by rw [hw]; nofun) nofun
    exact ⟨lo, ⟨hflush.head, hflush.tail, hflush.le, hflush.lap, hflush.log, hflush.worker,
      hflush.thread, hflush.held, hflush.unique⟩⟩
  · next hw =>
    cases hstep
    have hclose := h.work (w := .exited) trivial (by rw [hw]; nofun) nofun
    exact ⟨lo, ⟨hclose.head, hclose.tail, hclose.le, hclose.lap, hclose.log, hclose.worker,
      hclose.thread, hclose.held, hclose.unique⟩⟩
  · cases hstep

/-! ### The runs -/

/-- **A step keeps the queue in order.** -/
theorem rep_step {a : Act} (h : Rep s lo hi) (hstep : step s a = some s') :
    ∃ lo' hi', Rep s' lo' hi' := by
  cases a with
  | call i c =>
    dsimp only [step] at hstep
    split at hstep
    · next hpc =>
      cases hstep
      exact ⟨lo, hi, h.goto s.lock trivial nofun fun j _ hj => h.held j hj⟩
    · cases hstep
  | clock i ts =>
    dsimp only [step] at hstep
    split at hstep
    · next c hpc =>
      cases hstep
      exact ⟨lo, hi, h.goto s.lock trivial nofun fun j _ hj => h.held j hj⟩
    · cases hstep
  | thread i =>
    obtain ⟨hi', hrep⟩ := rep_threadStep h hstep
    exact ⟨lo, hi', hrep⟩
  | openFile ok =>
    dsimp only [step] at hstep
    split at hstep
    · next hw =>
      cases hstep
      refine ⟨lo, hi, h.work ?_ (by rw [hw]; nofun) ?_⟩
      · split <;> trivial
      · split <;> nofun
    · cases hstep
  | worker =>
    obtain ⟨lo', hrep⟩ := rep_workerStep h hstep
    exact ⟨lo', hi, hrep⟩
  | stop =>
    cases hstep
    exact ⟨lo, hi, ⟨h.head, h.tail, h.le, h.lap, h.log, h.worker, h.thread, h.held, h.unique⟩⟩

theorem rep_initEngine (memory : ℕ → Slot) : Rep (initEngine memory) 0 0 :=
  ⟨rfl, rfl, le_rfl, Nat.zero_le _, window_self _ _ _, trivial, fun _ => trivial, nofun, nofun⟩

/-- **Every reachable queue stands somewhere.** -/
theorem rep_of_reachable (h : machine.Reachable s) : ∃ lo hi, Rep s lo hi := by
  apply h.invariant (P := fun s => ∃ lo hi, Rep s lo hi)
  · rintro s ⟨memory, rfl⟩
    exact ⟨0, 0, rep_initEngine memory⟩
  · rintro u a v ⟨lo, hi, hrep⟩ hstep
    exact rep_step hrep hstep

/-- A thread that has loaded `head` gives up only if the ring is full. -/
theorem Rep.full_of_drop (h : Rep s lo hi) {c : Call} {ts : Int64} {t : ℕ}
    (hpc : s.threads i = .loadHead c ts t) (hstep : threadStep s i = some s')
    (hdrop : s'.threads i = .unlock) : s.pending.length = queueSize := by
  have ht := h.thread i
  rw [hpc] at ht
  obtain rfl : t = s.tail := ht
  rw [threadStep, hpc] at hstep
  dsimp only at hstep
  split at hstep
  · -- otherwise it goes on to write
    cases hstep
    rw [Engine.goto_self] at hdrop
    cases hdrop
  · next hfull =>
    have hlap := h.lap
    rw [h.distance] at hfull
    rw [h.pending_eq, length_window]
    omega

/-- **What is printed, taken out and in the ring is what was accepted, in order; an event is
dropped only if the ring is full.** -/
theorem pipeline (h : machine.Reachable s) :
    s.printed ++ s.taken ++ s.pending = s.accepted ∧
      ∀ i c ts t s', s.threads i = .loadHead c ts t → step s (.thread i) = some s' →
        s'.threads i = .unlock → s.pending.length = queueSize := by
  obtain ⟨lo, hi, hrep⟩ := rep_of_reachable h
  constructor
  · rw [hrep.pending_eq]
    exact hrep.log
  · intro i c ts t s' hpc hstep hdrop
    exact hrep.full_of_drop hpc hstep hdrop

/-- An event whose strings have one character. -/
def pulse (sequence : Int64) : Call :=
  ⟨⟨[68], by decide⟩, ⟨[72], by decide⟩, sequence⟩

/-- A thread logs an event while another one waits for the lock; the worker has copied the
first event when the second is accepted. -/
def twoPulses : List Act :=
  [.openFile true, .call 0 (pulse 1), .clock 0 10, .thread 0, .call 1 (pulse 2), .clock 1 20,
    .thread 1] ++ List.replicate 10 (.thread 0) ++ List.replicate 150 .worker ++
    List.replicate 10 (.thread 1)

theorem pipeline_twoPulses :
    ∃ s, machine.Reachable s ∧ s.taken = [(pulse 1).record 10] ∧ s.accepted.length = 2 ∧
      s.printed ++ s.taken ++ s.pending = s.accepted := by
  have hexec : (machine.exec (fun _ _ => true) (initEngine fun _ => .blank) twoPulses).map
      (fun s => (s.taken, s.accepted.length)) = some ([(pulse 1).record 10], 2) := by
    decide +kernel
  obtain ⟨s, hs, hend⟩ := Machine.exists_path_of_exec hexec
  obtain ⟨htaken, hlen⟩ := Prod.mk.inj hend
  have hreach : machine.Reachable s := hs.reachable (.init ⟨_, rfl⟩)
  exact ⟨s, hreach, htaken, hlen, (pipeline hreach).1⟩

end Logger
end SovereignSeed
