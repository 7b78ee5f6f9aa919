import SovereignSeed.Audit.Invariant

/-!
# Conservation of the audit ledger

When the logger returns, `main` has cleared `running`, so every worker has
returned, and the exit test has found `head` at `tail`: the queue is empty, every
claimed ticket has been handed over, and every record handed over is printed and
added up.  An emptied ring has handed over a merge of the rounds of its crew, so that is
what the log shows: the trades, worker by worker in the order of their rounds.

## Main results

* `log_of_drained` — the log is a merge of the workers' rounds.
* `ledger_of_returned` — **nothing is lost or counted twice.**
-/

namespace SovereignSeed
namespace Audit

open Mpmc

variable {P : ℕ} {Q : QueueSize} {F : Feed P} {M : ℕ}

/-- Once the logger has returned, every worker has finished and the ring is empty. -/
theorem drained_of_returned {s : AuditEngine P} (h : AuditInv Q F M s) (hret : s.logger = .returned) :
    (∀ w, s.finished M w = true) ∧ s.queue.head = s.queue.tail := by
  have hrun : s.running = false := h.shutdown.leaving (by rw [hret]; rfl)
  have hseen := h.shutdown.seen
  rw [hret] at hseen
  have hmain : ∀ w, s.finished M w = true := by
    have hm := h.shutdown.main
    rcases h.shutdown.stopped hrun with heq | heq <;> rw [heq] at hm <;> exact hm.1
  exact ⟨hmain, hseen⟩

/-- The logger thread has ended. -/
def AuditEngine.LoggerEnded (s : AuditEngine P) : Prop :=
  s.logger = .returned ∨ s.logger = .openFailed

/-- A logger that has ended stays where it is. -/
theorem logger_of_ended {s s' : AuditEngine P} {a : Act P} (hs : auditStep Q F M s a = some s')
    (hended : s.LoggerEnded) : s'.logger = s.logger := by
  cases a with
  | logger choice => rcases hended with hl | hl <;> simp [auditStep, loggerStep, hl] at hs
  | queue t m => grind [auditStep, Option.map_eq_some_iff]
  | worker w => grind [auditStep, Option.map_eq_some_iff]
  | main => grind [auditStep, mainStep]

/-- `main` gets to its end over the end of the logger. -/
theorem done_step {s s' : AuditEngine P} {a : Act P} (hs : auditStep Q F M s a = some s')
    (hdone : s'.main = .done) : s.main = .done ∨ s.LoggerEnded := by
  cases a with
  | logger choice => grind [auditStep, loggerStep, Option.map_eq_some_iff]
  | queue t m => grind [auditStep, Option.map_eq_some_iff]
  | worker w => grind [auditStep, Option.map_eq_some_iff]
  | main => grind [auditStep, mainStep, AuditEngine.LoggerEnded]

/-- Behind `main`'s joins the logger has ended. -/
theorem ended_of_reachable {s : AuditEngine P} (hr : (auditMachine Q F M).Reachable s) :
    s.main = .done → s.LoggerEnded := by
  refine hr.ended_of_passed ?_ (fun _ _ _ => done_step) fun _ _ _ hst hended => ?_
  · rintro s ⟨mem, trade, rfl⟩ hdone
    cases hdone
  · rwa [AuditEngine.LoggerEnded, logger_of_ended hst hended]

/-- **The log is a merge of the workers' rounds**: every worker's trades are in
it once each, in order, once the workers and the logger have returned from an
empty ring. -/
theorem log_of_drained {s : AuditEngine P} (h : AuditInv Q F M s) (hended : s.LoggerEnded)
    (hfin : ∀ w, s.finished M w = true) (hempty : s.queue.head = s.queue.tail) :
    ∃ L : List (Fin P × ℕ), s.log = L.map (fun l => F.trade l.1 l.2) ∧
      ∀ w, (share Prod.fst L w).map Prod.snd = List.range M := by
  have hdone : ∀ w, s.issued w = M ∧ (s.queue.pc (some w)).ready = true := by
    intro w
    simpa [AuditEngine.finished] using hfin w
  have hquiet : s.logger ≠ .inDequeue ∧ s.inHand = [] := by
    rcases hended with hl | hl <;> simp [AuditEngine.inHand, hl]
  have hready : ∀ t, (s.queue.pc t).ready = true := by
    intro t
    cases t with
    | none => exact h.parts.logger_out hquiet.1
    | some w => exact (hdone w).2
  obtain ⟨L, hL, hcount⟩ := h.crew.merge hready hempty
  refine ⟨L, ?_, fun w => ?_⟩
  · have hlog : s.queue.rets.map (fun r => AuditTradePayload.ofWords r.2.2) = s.log := by
      simpa [hquiet.2] using h.ledger.printed
    have hhanded := congrArg (List.map AuditTradePayload.ofWords) hL
    simpa [Function.comp_def, hlog] using hhanded
  · rw [hcount, (hdone w).1]

/-- A wrapped sum of 64-bit words is exact when the exact sum fits. -/
theorem toInt_sum_eq (ws : List (BitVec 64)) (hlo : -2 ^ 63 ≤ (ws.map BitVec.toInt).sum)
    (hhi : (ws.map BitVec.toInt).sum < 2 ^ 63) : ws.sum.toInt = (ws.map BitVec.toInt).sum := by
  have hwrap : ws.sum = BitVec.ofInt 64 (ws.map BitVec.toInt).sum := by
    clear hlo hhi
    induction ws with
    | nil => rfl
    | cons w ws ih => rw [List.sum_cons, ih, List.map_cons, List.sum_cons, BitVec.ofInt_add,
        BitVec.ofInt_toInt]
  rw [hwrap, BitVec.toInt_ofInt]
  exact Int.bmod_eq_of_le (by simpa using hlo) (by simpa using hhi)

/-- **Conservation of the ledger.**  When the logger returns, the log is a merge
of the workers' rounds `0, …, M - 1`, with the sequence numbers of every worker
increasing; `executed_count` is the number of all trades and `total_profit` is
the exact sum of their profits. -/
theorem ledger_of_returned {s : AuditEngine P} (hM : P * M < 2 ^ 63)
    (hlo : -2 ^ 63 ≤ ∑ w : Fin P, ∑ i ∈ Finset.range M, (F.trade w i).netProfitFixed.toInt)
    (hhi : ∑ w : Fin P, ∑ i ∈ Finset.range M, (F.trade w i).netProfitFixed.toInt < 2 ^ 63)
    (hr : (auditMachine Q F M).Reachable s) (hret : s.logger = .returned) :
    (∃ L : List (Fin P × ℕ), s.log = L.map (fun l => F.trade l.1 l.2) ∧
      (∀ w, (share Prod.fst L w).map Prod.snd = List.range M) ∧
      ∀ w, (share Prod.fst L w).map (fun l => (F.trade l.1 l.2).sequence.toNat) = List.range M) ∧
    s.executedCount.toInt = P * M ∧ s.logged = P * M ∧
    s.totalProfit.toInt = ∑ w : Fin P, ∑ i ∈ Finset.range M, (F.trade w i).netProfitFixed.toInt := by
  have h := auditInv_of_reachable hM hr
  obtain ⟨hfin, hempty⟩ := drained_of_returned h hret
  obtain ⟨L, hlog, hshare⟩ := log_of_drained h (.inl hret) hfin hempty
  have hsum : ∀ {A : Type} [AddCommMonoid A] (g : Fin P × ℕ → A),
      (L.map g).sum = ∑ w, ∑ i ∈ Finset.range M, g (w, i) := by
    intro A _ g
    rw [sum_share Prod.fst g L]
    apply Finset.sum_congr rfl
    intro w _
    rw [map_share, hshare]
    rfl
  have hlength : s.log.length = P * M := by
    have hcard := hsum fun _ => (1 : ℕ)
    simpa [hlog] using hcard
  have hcounted : s.counted.length = P * M := by
    rw [AuditEngine.counted, hret]
    simpa using hlength
  have hprofit : ((s.log.map (·.netProfitFixed)).map BitVec.toInt).sum =
      ∑ w : Fin P, ∑ i ∈ Finset.range M, (F.trade w i).netProfitFixed.toInt := by
    rw [← hsum fun l => (F.trade l.1 l.2).netProfitFixed.toInt, hlog]
    simp [Function.comp_def]
  refine ⟨⟨L, hlog, hshare, fun w => ?_⟩, ?_, ?_, ?_⟩
  · rw [map_share (fun l => (F.trade l.1 l.2).sequence.toNat), hshare]
    have hMw : M ≤ P * M := Nat.le_mul_of_pos_left M (Fin.pos w)
    have hseq : ∀ i ∈ List.range M, (F.trade w i).sequence.toNat = i := by
      intro i hi
      have hi : i < M := List.mem_range.mp hi
      rw [F.sequence_eq, BitVec.toNat_ofNat, Nat.mod_eq_of_lt (by omega)]
    exact (List.map_congr_left hseq).trans (List.map_id _)
  · rw [h.ledger.count, hcounted, BitVec.toInt_eq_toNat_bmod, BitVec.toNat_ofNat,
      Nat.mod_eq_of_lt (by omega), ← Nat.cast_mul]
    exact Int.bmod_eq_of_le (by omega) (by omega)
  · rw [h.ledger.flushed, hcounted]
  · have hadded : s.added = s.log := by rw [AuditEngine.added, hret]; rfl
    rw [h.ledger.profit, hadded, toInt_sum_eq _ (hprofit ▸ hlo) (hprofit ▸ hhi), hprofit]

/-- The moves of one enqueue of worker `w`, from call to publication. -/
def enqueueSchedule (w : Fin 2) : List (Act 2) :=
  .worker w :: [.go, .go, .go, .copy 3, .copy 0, .copy 1, .copy 2, .copy 4, .copy 5, .go].map
    (.queue (some w))

/-- One round of the logger with a record in the ring. -/
def recordSchedule : List (Act 2) :=
  [.logger true, .logger true] ++
    [.go, .go, .go, .copy 0, .copy 1, .copy 2, .copy 3, .copy 4, .copy 5, .go].map (.queue none) ++
      [.logger true, .logger true, .logger true, .logger true]

/-- Two workers with one trade each; `main` joins them while the logger is at
work, and the logger leaves through the second reading of its exit test. -/
def ledgerSchedule : List (Act 2) :=
  .logger true :: enqueueSchedule 1 ++ recordSchedule ++ enqueueSchedule 0 ++
    [.main, .main, .main, .main] ++ recordSchedule ++
      [.main, .main, .logger true, .logger false, .logger true]

theorem ledger_of_returned_two_workers :
    ∃ s : AuditEngine 2, s.log.length = 2 ∧ s.logger = .returned ∧ s.executedCount.toInt = 2 ∧
      s.totalProfit.toInt = 37600 := by
  have heval : ((auditMachine ⟨1, by decide, by decide⟩ (simulationFeed 2 (fun _ _ => 5) fun _ _ => 9)
      1).exec (fun _ _ => true) (initEngine (fun _ _ => 0) fun _ => 0) ledgerSchedule).map
        (fun s => (s.logger, s.log.length)) = some (.returned, 2) := by
    decide
  obtain ⟨s, hpath, hq⟩ := Machine.exists_path_of_exec heval
  obtain ⟨hret, hlen⟩ := Prod.mk.inj hq
  have hr := hpath.reachable (.init ⟨_, _, rfl⟩)
  obtain ⟨-, hcount, -, hprofit⟩ := ledger_of_returned (by decide) (by decide)
    (by decide) hr hret
  exact ⟨s, hlen, hret, hcount, hprofit.trans (by decide)⟩

end Audit
end SovereignSeed
