import SovereignSeed.Tollbridge.Admission
import SovereignSeed.Tollbridge.Canonical
import SovereignSeed.Tollbridge.Flush
import SovereignSeed.Tollbridge.Rejection
import Mathlib.Data.List.FinRange

/-!
# Replay

Engine objects follow one another on a database file: each is started and
stopped any number of times, and an object may still have submissions in flight
when another runs.  The vault is to accept a signed envelope once.

The bytes that are signed have the strings stripped, and the vault is keyed by
the strings as they come, so one signature goes with many keys.  Whether clients
can replay an envelope is therefore a question about the requests they have: two
that say the same under two keys are both accepted.  A `commit` that no longer
finds its `INSERT` is a second way, and a step the runs below do not take.

## Main definitions

* `Fleet`, `fleetMachine` — engine objects on one file.
* `FleetInv`, `SentInv` — what holds of the members in the guarded runs.
* `Request.signed`, `Acceptable` — what a request says, and that it can be accepted.
* `SpelledOnce` — acceptable requests that say the same have the same key.

## Main results

* `FleetInv.step`, `SentInv.step` — **the guarded steps preserve them.**
* `accepted_once` — **no envelope is accepted twice exactly when the requests are
  spelt once**; `spelling_accepted_twice` is a run in which one is.
* `spelledOnce_of_plain` — keys without white space around them are spelt once.
-/

namespace SovereignSeed
namespace Tollbridge

open Python

variable {C : Crypto} {eid : ℕ} {s s' : Engine} {a : Act} {n : ℕ} {cfg : Fin n → Config}

/-! ### Engines on one file -/

/-- The engine, with the database file as others have left it. -/
def Engine.onFile (s : Engine) (file : Tables) : Engine :=
  { s with store := { s.store with file := file } }

/-- Engine objects on one database file. -/
structure Fleet (n : ℕ) where
  file : Tables
  members : Fin n → Engine

namespace Fleet

/-- Member `j`. -/
def member (f : Fleet n) (j : Fin n) : Engine := (f.members j).onFile f.file

/-- Member `j` moves to the state `s`. -/
def after (f : Fleet n) (j : Fin n) (s : Engine) : Fleet n where
  file := s.store.file
  members := Function.update f.members j s

/-- A step of a member; a member starts when no other has the file open. -/
def step (C : Crypto) (cfg : Fin n → Config) (f : Fleet n) (a : Fin n × Act) : Option (Fleet n) :=
  if a.2 = .start ∧ ∃ k, (f.members k).store.epoch ≠ none then none
  else ((f.member a.1).step C (cfg a.1) a.1 a.2).map (f.after a.1)

/-- New engine objects on a file. -/
def fresh (n : ℕ) (file : Tables) : Fleet n := ⟨file, fun _ => .fresh file⟩

/-- The accepted calls have different canonical bytes. -/
def AcceptedOnce (C : Crypto) (f : Fleet n) : Prop :=
  ∀ j i call j' i' call', (f.members j).calls i = some call → call.pc = .returned .accepted →
    (f.members j').calls i' = some call' → call'.pc = .returned .accepted →
    call.request.signedBytes C = call'.request.signedBytes C → j = j' ∧ i = i'

end Fleet

/-- Engine objects on a file with an empty vault. -/
def fleetMachine (C : Crypto) (cfg : Fin n → Config) : Machine (Fleet n) (Fin n × Act) where
  init := fun f => ∃ file : Tables, file.vault = [] ∧ f = .fresh n file
  step := Fleet.step C cfg

namespace Fleet

variable {f : Fleet n} {j k : Fin n}

@[simp] theorem member_after_self : (f.after j s).member j = s := by
  have hself : (f.after j s).members j = s := Function.update_self _ _ _
  rw [member, hself]
  rfl

theorem member_after_of_ne (h : k ≠ j) :
    (f.after j s).member k = (f.members k).onFile s.store.file := by
  have hne : (f.after j s).members k = f.members k := Function.update_of_ne h _ _
  rw [member, hne]
  rfl

/-- What a step of a member does. -/
theorem moves_of_step {f' : Fleet n} (h : f.step C cfg (j, a) = some f') :
    ∃ s, Moves C (cfg j) j (f.member j) a s ∧ f' = f.after j s ∧
      (a = .start → ∀ k, (f.members k).store.epoch = none) := by
  unfold step at h
  split at h
  · cases h
  · next hstart =>
    obtain ⟨s, hst, rfl⟩ := Option.map_eq_some_iff.mp h
    refine ⟨s, Tollbridge.moves_of_step hst, rfl, ?_⟩
    intro ha k
    by_contra hk
    exact hstart ⟨ha, k, hk⟩

end Fleet

/-! ### A step of one member and the others -/

/-- Only `start()` opens a connection. -/
theorem Moves.epoch_ne_none {cfg : Config} (hm : Moves C cfg eid s a s') (ha : a ≠ .start)
    (h : s'.store.epoch ≠ none) : s.store.epoch ≠ none := by
  cases hm with
  | start => exact absurd rfl ha
  | stopReturn => exact absurd rfl h
  | begun => exact (Store.epoch_beginTx s.store) ▸ h
  | inserted => exact (Store.epoch_write s.store _) ▸ h
  | committed => exact (Store.epoch_commit s.store) ▸ h
  | flushBegun => exact (Store.epoch_beginTx s.store) ▸ h
  | rowWritten => exact (Store.epoch_write s.store _) ▸ h
  | flushCommitted => exact (Store.epoch_commit s.store) ▸ h
  | stopCall => exact h
  | submit => exact h
  | pcOnly => exact h
  | put => exact h
  | writerOnly => exact h
  | got => exact h
  | flushReturned => exact h

/-- Without a connection a step leaves the file as it is. -/
theorem Moves.file_eq {cfg : Config} (hm : Moves C cfg eid s a s') (h : s.store.epoch = none) :
    s'.store.file = s.store.file := by
  cases hm with
  | inserted =>
    change (s.store.write _).file = _
    rw [Store.write_of_epoch_eq_none s.store _ h]
  | rowWritten =>
    change (s.store.write _).file = _
    rw [Store.write_of_epoch_eq_none s.store _ h]
  | committed => exact congrArg Store.file (Store.commit_of_epoch_eq_none s.store h)
  | flushCommitted => exact congrArg Store.file (Store.commit_of_epoch_eq_none s.store h)
  | start => rfl
  | stopReturn => rfl
  | begun => rfl
  | flushBegun => rfl
  | stopCall => rfl
  | submit => rfl
  | pcOnly => rfl
  | put => rfl
  | writerOnly => rfl
  | got => rfl
  | flushReturned => rfl

/-- A call keeps the request it was submitted with. -/
theorem Moves.request {cfg : Config} (hm : Moves C cfg eid s a s') {i : ℕ} {call' : Call}
    (hcall : s'.calls i = some call') :
    (∃ call, s.calls i = some call ∧ call.request = call'.request) ∨
      ∃ now, a = .submit now call'.request := by
  have hmoved : ∀ {t : Engine} {k : ℕ} {call : Call} {pc : CallPc}, t.calls = s.calls →
      s.calls k = some call → (t.setPc k call pc).calls i = some call' →
      ∃ call, s.calls i = some call ∧ call.request = call'.request := by
    intro t k call pc ht hold h
    rcases setPc_calls h with ⟨rfl, rfl⟩ | ⟨-, h⟩
    · exact ⟨call, hold, rfl⟩
    · exact ⟨call', ht ▸ h, rfl⟩
  cases hm with
  | submit now r =>
    rcases submit_calls hcall with ⟨-, hreq, -, -⟩ | ⟨-, hold⟩
    · exact .inr ⟨now, hreq ▸ rfl⟩
    · exact .inl ⟨call', hold, rfl⟩
  | pcOnly hold => exact .inl (hmoved rfl hold hcall)
  | begun hold => exact .inl (hmoved (t := { s with store := s.store.beginTx }) rfl hold hcall)
  | inserted hold => exact .inl (hmoved (t := s.insertVault _) rfl hold hcall)
  | committed hold => exact .inl (hmoved (t := { s with store := s.store.commit }) rfl hold hcall)
  | put hold => exact .inl (hmoved rfl hold hcall)
  | start => exact .inl ⟨call', hcall, rfl⟩
  | stopCall => exact .inl ⟨call', hcall, rfl⟩
  | stopReturn => exact .inl ⟨call', hcall, rfl⟩
  | writerOnly => exact .inl ⟨call', hcall, rfl⟩
  | got => exact .inl ⟨call', hcall, rfl⟩
  | flushBegun => exact .inl ⟨call', hcall, rfl⟩
  | rowWritten => exact .inl ⟨call', hcall, rfl⟩
  | flushCommitted => exact .inl ⟨call', hcall, rfl⟩
  | flushReturned => exact .inl ⟨call', hcall, rfl⟩

theorem epoch_onFile (h : s.store.epoch = none) {file : Tables} :
    (s.onFile file).vault.epoch = none :=
  (Store.epoch_map _ _).trans h

/-- An engine without a connection, on a file others have written. -/
theorem VaultInv.onFile (h : VaultInv eid s) (he : s.store.epoch = none) {file : Tables}
    (hkeys : (file.vault.map VaultRow.key).Nodup) : VaultInv eid (s.onFile file) where
  sound := Store.sound_of_epoch_eq_none (epoch_onFile he)
  keys := by
    rw [Store.view_of_epoch_eq_none _ (epoch_onFile he)]
    exact hkeys
  fresh := h.fresh
  epoch_lt := h.epoch_lt
  inserted := fun _ _ hopen => by
    rw [epoch_onFile he] at hopen
    cases hopen

/-! ### The members of a fleet -/

/-- No commit has lost its row: what then holds of the members. -/
structure FleetInv (f : Fleet n) : Prop where
  vault : ∀ k : Fin n, VaultInv k (f.member k)
  durable : ∀ k : Fin n, DurableInv k (f.member k)
  /-- At most one member has the file open. -/
  alone : ∀ {k k'}, (f.members k).store.epoch ≠ none → (f.members k').store.epoch ≠ none → k = k'

namespace FleetInv

variable {f : Fleet n} {j : Fin n}

theorem of_init (h : (fleetMachine C cfg).init f) : FleetInv f := by
  obtain ⟨file, hvault, rfl⟩ := h
  refine ⟨?_, ?_, ?_⟩
  · intro k
    have hnodup : (file.vault.map VaultRow.key).Nodup := by
      rw [hvault]
      exact List.nodup_nil
    exact VaultInv.of_fresh hnodup
  · intro k
    exact DurableInv.of_fresh
  · intro k k' hk
    exact absurd rfl hk

/-- **A step of a member that commits no lost row preserves the invariant.** -/
theorem step (h : FleetInv f) (hm : Moves C (cfg j) j (f.member j) a s)
    (hstart : a = .start → ∀ k, (f.members k).store.epoch = none)
    (hok : commitsRecord j (f.member j) a = true) : FleetInv (f.after j s) := by
  have hv := (h.vault j).step hm
  have hgrows : f.file.vault <+: s.store.file.vault := vault_file_prefix hm (h.vault j).sound
  -- a member that is not the one that moves sees the file grow, or has it open
  have hothers : ∀ k, k ≠ j → VaultInv k ((f.after j s).member k) ∧
      DurableInv k ((f.after j s).member k) := by
    intro k hk
    rw [Fleet.member_after_of_ne hk]
    by_cases he : (f.members k).store.epoch = none
    · refine ⟨?_, ?_⟩
      · exact VaultInv.onFile (s := f.member k) (h.vault k) he
          (hv.keys.sublist (hv.sound.durable.sublist.map _))
      · exact DurableInv.of_prefix (h.durable k) rfl hgrows
    · have hnone : (f.members j).store.epoch = none := by
        by_contra hj
        exact hk (h.alone he hj)
      rw [show s.store.file = f.file from hm.file_eq hnone]
      exact ⟨h.vault k, h.durable k⟩
  refine ⟨?_, ?_, ?_⟩
  · intro k
    by_cases hk : k = j
    · subst hk
      rw [Fleet.member_after_self]
      exact hv
    · exact (hothers k hk).1
  · intro k
    by_cases hk : k = j
    · subst hk
      rw [Fleet.member_after_self]
      exact (h.durable k).step (h.vault k) hm hok
    · exact (hothers k hk).2
  · have hopen : ∀ {k}, ((f.after j s).members k).store.epoch ≠ none →
        k = j ∨ (f.members k).store.epoch ≠ none := by
      intro k hk
      by_cases hkj : k = j
      · exact .inl hkj
      · have heq : (f.after j s).members k = f.members k := Function.update_of_ne hkj _ _
        rw [heq] at hk
        exact .inr hk
    have hself : ∀ {k}, k ≠ j → ((f.after j s).members k).store.epoch ≠ none →
        ((f.after j s).members j).store.epoch = none := by
      intro k hk hek
      have hek := (hopen hek).resolve_left hk
      by_contra hej
      have heq : (f.after j s).members j = s := Function.update_self _ _ _
      rw [heq] at hej
      have hne : a ≠ .start := by
        intro ha
        exact hek (hstart ha k)
      exact hk (h.alone hek (hm.epoch_ne_none hne hej))
    intro k k' hek hek'
    by_cases hk : k = j
    · by_cases hk' : k' = j
      · rw [hk, hk']
      · subst hk
        exact absurd (hself hk' hek') hek
    · by_cases hk' : k' = j
      · subst hk'
        exact absurd (hself hk hek) hek'
      · exact h.alone ((hopen hek).resolve_left hk) ((hopen hek').resolve_left hk')

end FleetInv

/-! ### The requests of a fleet -/

/-- What the bytes of a request say. -/
def Request.signed (C : Crypto) (r : Request) : Envelope :=
  (r.toHeader.envelope (C.hexdigest r.rawPayload)).signed

/-- The request passes its checks at some time, and the vault can store it. -/
def Acceptable (C : Crypto) (r : Request) : Prop :=
  (∃ now, validateSubmission C now r = .ok ()) ∧ r.storable = true

/-- The acceptable requests that say the same have the same key. -/
def SpelledOnce (C : Crypto) (R : Set Request) : Prop :=
  ∀ r ∈ R, ∀ r' ∈ R, Acceptable C r → Acceptable C r' → r.signed C = r'.signed C → r.key = r'.key

/-- **Keys without white space around them are spelt once.** -/
theorem spelledOnce_of_plain {R : Set Request}
    (h : ∀ r ∈ R, isPlain r.clientPubkey = true ∧ isPlain r.nonce = true) : SpelledOnce C R := by
  have hjoin : ∀ {s : PyStr}, isPlain s = true → Json.joinPairs (strip s) = s := by
    intro s hs
    refine (Json.joinPairs_strip_eq_iff s).mpr ?_
    simpa [isPlain] using hs
  intro r hr r' hr' _ _ hsigned
  have hpubkey : Json.joinPairs (strip r.clientPubkey) = Json.joinPairs (strip r'.clientPubkey) :=
    congrArg Envelope.clientPubkey hsigned
  have hnonce : Json.joinPairs (strip r.nonce) = Json.joinPairs (strip r'.nonce) :=
    congrArg Envelope.nonce hsigned
  rw [hjoin (h r hr).1, hjoin (h r' hr').1] at hpubkey
  rw [hjoin (h r hr).2, hjoin (h r' hr').2] at hnonce
  exact Prod.ext hpubkey hnonce

/-- The calls of a fleet whose clients send what is in `R`. -/
structure SentInv (C : Crypto) (R : Set Request) (f : Fleet n) : Prop where
  sent : ∀ {k i call}, (f.members k).calls i = some call → call.request ∈ R
  admitted : ∀ k : Fin n, AdmitInv C k (f.members k)

/-- **A step that submits nothing but what is in `R` preserves the invariant.** -/
theorem SentInv.step {R : Set Request} {f : Fleet n} {j : Fin n} (h : SentInv C R f)
    (hm : Moves C (cfg j) j (f.member j) a s) (hR : ∀ now r, a = .submit now r → r ∈ R) :
    SentInv C R (f.after j s) := by
  have hself : (f.after j s).members j = s := Function.update_self _ _ _
  have hne : ∀ {k}, k ≠ j → (f.after j s).members k = f.members k :=
    fun hk => Function.update_of_ne hk _ _
  refine ⟨?_, ?_⟩
  · intro k i call hcall
    by_cases hk : k = j
    · subst hk
      rw [hself] at hcall
      rcases hm.request hcall with ⟨old, hold, hreq⟩ | ⟨now, ha⟩
      · exact hreq ▸ h.sent (k := k) hold
      · exact hR now _ ha
    · rw [hne hk] at hcall
      exact h.sent hcall
  · intro k
    by_cases hk : k = j
    · subst hk
      rw [hself]
      have hfile : AdmitInv C k (f.member k) := (h.admitted k).of_calls rfl
      exact hfile.step hm
    · rw [hne hk]
      exact h.admitted k

/-! ### No envelope is accepted twice -/

/-- Steps of member `j`. -/
def stepsOf (j : Fin n) (as : List Act) : List (Fin n × Act) := as.map fun a => (j, a)

/-- **A member whose fellows are stopped runs as an engine of its own.** -/
theorem Fleet.exists_path_of_member {j : Fin n} {as : List Act}
    (h : (engineMachine C (cfg j) j).Path (fun u a => commitsRecord j u a = true) s as s') :
    ∀ {f : Fleet n}, f.member j = s → (∀ k, k ≠ j → (f.members k).store.epoch = none) →
      ∃ f', (fleetMachine C cfg).Path (fun u a => commitsRecord a.1 (u.member a.1) a.2 = true) f
        (stepsOf j as) f' ∧ f'.member j = s' := by
  induction h with
  | nil => exact fun {f} hf _ => ⟨f, .nil f, hf⟩
  | @cons s t s' a as hok hst _ ih =>
    intro f hf hothers
    subst hf
    have hst : (f.member j).step C (cfg j) j a = some t := hst
    have hfree : ¬(a = .start ∧ ∃ k, (f.members k).store.epoch ≠ none) := by
      rintro ⟨rfl, k, hk⟩
      by_cases hkj : k = j
      · -- it would have to be stopped itself
        subst hkj
        simp only [Engine.step] at hst
        split at hst
        · next hstart => exact hk hstart.1
        · cases hst
      · exact hk (hothers k hkj)
    have hstep : f.step C cfg (j, a) = some (f.after j t) := by
      rw [Fleet.step, if_neg hfree, hst]
      rfl
    have hothers' : ∀ k, k ≠ j → ((f.after j t).members k).store.epoch = none := by
      intro k hk
      have hsame : (f.after j t).members k = f.members k := Function.update_of_ne hk _ _
      rw [hsame]
      exact hothers k hk
    obtain ⟨f', hpath, hmember⟩ := ih Fleet.member_after_self hothers'
    exact ⟨f', .cons hok hstep hpath, hmember⟩

/-- **Acceptable requests under different keys are accepted one after the other.** -/
theorem exists_accepted_twice {r r' : Request} (h : Acceptable C r) (h' : Acceptable C r')
    (hkey : r.key ≠ r'.key) : ∃ now now' f,
    (fleetMachine C fun _ : Fin 1 => ⟨10, 10⟩).Path
        (fun u a => commitsRecord a.1 (u.member a.1) a.2 = true) (.fresh 1 ⟨[], []⟩)
        (stepsOf 0 (.start :: submissionAt 0 now r ++ submissionAt 1 now' r')) f ∧
      (f.members 0).calls 0 = some ⟨r, now, .returned .accepted⟩ ∧
      (f.members 0).calls 1 = some ⟨r', now', .returned .accepted⟩ := by
  obtain ⟨⟨now, hvalid⟩, hstore⟩ := h
  obtain ⟨⟨now', hvalid'⟩, hstore'⟩ := h'
  obtain ⟨s, hpath, hs⟩ : ∃ s, (engineMachine C ⟨10, 10⟩ 0).Path
      (fun u a => commitsRecord 0 u a = true) (.fresh ⟨[], []⟩) (.start :: submissionAt 0 now r) s ∧
        Answered (Engine.fresh ⟨[], []⟩).start now r s := exists_answered_first hvalid hstore
  have hnew : r'.key ∉ s.vault.view.map VaultRow.key := by
    rw [hs.keys]
    exact fun hmem => hkey (List.mem_singleton.mp hmem).symm
  have hroom : s.queueFull ⟨10, 10⟩ = false := by
    rw [Engine.queueFull, hs.queue]
    rfl
  obtain ⟨t, hpath', ht⟩ : ∃ t, (engineMachine C ⟨10, 10⟩ 0).Path
      (fun u a => commitsRecord 0 u a = true) s (submissionAt 1 now' r') t ∧ Answered s now' r' t := by
    have hsecond : s.submitted = 1 := hs.submitted
    rw [← hsecond]
    exact exists_answered hs.epoch hvalid' hstore' hnew hroom
  have hcalls : t.calls 0 = some ⟨r, now, .returned .accepted⟩ ∧
      t.calls 1 = some ⟨r', now', .returned .accepted⟩ := by
    rw [ht.calls, hs.submitted, hs.calls]
    exact ⟨rfl, rfl⟩
  have hrun : (engineMachine C ⟨10, 10⟩ ((0 : Fin 1) : ℕ)).Path
      (fun u a => commitsRecord ((0 : Fin 1) : ℕ) u a = true) (.fresh ⟨[], []⟩)
      (.start :: submissionAt 0 now r ++ submissionAt 1 now' r') t := hpath.trans hpath'
  obtain ⟨f, hfleet, hmember⟩ : ∃ f, (fleetMachine C fun _ : Fin 1 => ⟨10, 10⟩).Path
      (fun u a => commitsRecord a.1 (u.member a.1) a.2 = true) (.fresh 1 ⟨[], []⟩)
      (stepsOf 0 (.start :: submissionAt 0 now r ++ submissionAt 1 now' r')) f ∧ f.member 0 = t :=
    Fleet.exists_path_of_member hrun rfl fun k hk => absurd (Subsingleton.elim k 0) hk
  rw [← hmember] at hcalls
  exact ⟨now, now', f, hfleet, hcalls⟩

/-- **When no envelope is accepted twice**: the calls that are accepted, by whichever
engines on the file, have different canonical bytes in every run over the requests of
`R` that commits no lost row, exactly when `R` holds no two spellings of one envelope. -/
theorem accepted_once (C : Crypto) (R : Set Request) :
    (∀ (n : ℕ) (cfg : Fin n → Config) (f₀ f : Fleet n) (as : List (Fin n × Act)),
      (fleetMachine C cfg).init f₀ →
      (fleetMachine C cfg).Path (fun u a => commitsRecord a.1 (u.member a.1) a.2 = true) f₀ as f →
      (∀ k now r, (k, Act.submit now r) ∈ as → r ∈ R) → f.AcceptedOnce C) ↔
      SpelledOnce C R := by
  constructor
  · intro honce r hr r' hr' hok hok' hsigned
    by_contra hkey
    obtain ⟨now, now', f, hpath, hcall, hcall'⟩ := exists_accepted_twice hok hok' hkey
    have hbytes : r.signedBytes C = r'.signedBytes C := (bytes_eq_iff_signed _ _).mpr hsigned
    have hsent : ∀ (k : Fin 1) t q, (k, Act.submit t q) ∈
        stepsOf 0 (.start :: submissionAt 0 now r ++ submissionAt 1 now' r') → q ∈ R := by
      intro k t q hq
      simp only [stepsOf, submissionAt, List.cons_append, List.nil_append, List.map_cons,
        List.map_nil, List.mem_cons, Prod.mk.injEq, Act.submit.injEq, reduceCtorEq, and_false,
        false_or, List.not_mem_nil, or_false] at hq
      rcases hq with ⟨-, -, rfl⟩ | ⟨-, -, rfl⟩
      · exact hr
      · exact hr'
    obtain ⟨-, heq⟩ := honce 1 _ _ f _ ⟨_, rfl, rfl⟩ hpath
      hsent 0 0 _ 0 1 _ hcall rfl hcall' rfl hbytes
    cases heq
  · intro hspelt n cfg f₀ f as h0 hpath hR
    have hfresh : SentInv C R f₀ := by
      obtain ⟨file, -, rfl⟩ := h0
      refine ⟨?_, fun _ => .of_fresh⟩
      intro k i call hcall
      cases hcall
    have hsent : ∀ b ∈ as, ∀ now r, b.2 = .submit now r → r ∈ R := by
      rintro ⟨k, b⟩ hb now r rfl
      exact hR k now r hb
    obtain ⟨hinv, hcalls⟩ := (hpath.guarded hsent).invariant
      (P := fun u => FleetInv u ∧ SentInv C R u)
      (fun u b v hu hok hst => by
        obtain ⟨j, a⟩ := b
        obtain ⟨s, hm, rfl, hstart⟩ := Fleet.moves_of_step hst
        exact ⟨hu.1.step hm hstart hok.1, hu.2.step hm hok.2⟩) ⟨.of_init h0, hfresh⟩
    intro j i call j' i' call' hcall hpc hcall' hpc' hbytes
    -- both are acceptable requests that say the same, so they have one key
    have hchecked : ∀ {k i call}, (f.members k).calls i = some call →
        call.pc = .returned .accepted → Acceptable C call.request := by
      intro k i call hcall hpc
      obtain ⟨hvalid, hstore⟩ := (hcalls.admitted k).checked hcall (by rw [hpc]; rfl)
      exact ⟨⟨_, hvalid⟩, hstore⟩
    have hkey : call.request.key = call'.request.key :=
      hspelt _ (hcalls.sent hcall) _ (hcalls.sent hcall') (hchecked hcall hpc)
        (hchecked hcall' hpc') ((bytes_eq_iff_signed _ _).mp hbytes)
    -- they have their rows in the file, under one key, so the rows are one
    have hrow : call.vaultRow j i ∈ f.file.vault := hinv.durable j i call hcall (by rw [hpc]; rfl)
    have hrow' : call'.vaultRow j' i' ∈ f.file.vault :=
      hinv.durable j' i' call' hcall' (by rw [hpc']; rfl)
    have hkeys : (f.file.vault.map VaultRow.key).Nodup :=
      (hinv.vault j).keys.sublist ((hinv.vault j).sound.durable.sublist.map _)
    have heq : call.vaultRow j i = call'.vaultRow j' i' :=
      List.inj_on_of_nodup_map hkeys hrow hrow' hkey
    have hcaller := Option.some.inj (congrArg VaultRow.caller heq)
    exact ⟨Fin.ext (Prod.mk.inj hcaller).1, (Prod.mk.inj hcaller).2⟩

/-- **One envelope is accepted twice** by an engine, with its nonce and with
another spelling of it. -/
theorem spelling_accepted_twice :
    ¬ ∀ f as, (fleetMachine clientCrypto fun _ : Fin 1 => ⟨10, 10⟩).Path Machine.free
        (.fresh 1 ⟨[], []⟩) as f →
      f.AcceptedOnce clientCrypto := by
  intro honce
  have hexec : ((fleetMachine clientCrypto fun _ : Fin 1 => ⟨10, 10⟩).exec (fun _ _ => true)
      (.fresh 1 ⟨[], []⟩)
      (stepsOf 0 ([.start, .writerStart] ++ submission 0 aliceFirst ++
        submission 1 aliceSpelling))).map
          (fun f => ((f.members 0).calls 0, (f.members 0).calls 1)) =
      some (some ⟨aliceFirst, clock, .returned .accepted⟩,
        some ⟨aliceSpelling, clock, .returned .accepted⟩) := by decide +kernel
  obtain ⟨f, hpath, hend⟩ := Machine.exists_path_of_exec hexec
  simp only [Prod.mk.injEq] at hend
  have hbytes : aliceFirst.signedBytes clientCrypto = aliceSpelling.signedBytes clientCrypto := by
    decide +kernel
  obtain ⟨-, hne⟩ := honce f _ (hpath.mono fun _ _ _ => trivial) 0 0 _ 0 1 _ hend.1 rfl hend.2 rfl
    hbytes
  cases hne

/-- Two engine objects, the second started after the first has stopped; the second
is given the request the first has accepted, and another. -/
def restartRun : List (Fin 2 × Act) :=
  stepsOf 0 ([.start, .writerStart] ++ submission 0 aliceFirst ++
      [.stopCall, .get, .flushBegin false, .flushRow false, .flushCommit false, .flushReturn,
        .stopReturn]) ++
    stepsOf 1 ([.start, .writerStart, .submit clock aliceFirst, .openCursor 0,
      .beginInsert 0 false, .insert 0 false, .resume 0 clock] ++ submission 1 aliceSecond)

/-- Clients whose keys have no white space around them: the second engine refuses the
request that has been accepted, and the two it and the first have accepted differ. -/
theorem accepted_once_restart : ∃ f,
    (fleetMachine clientCrypto fun _ : Fin 2 => ⟨10, 10⟩).Path
        (fun u a => commitsRecord a.1 (u.member a.1) a.2 = true) (.fresh 2 ⟨[], []⟩) restartRun f ∧
      (f.members 1).calls 0 =
        some ⟨aliceFirst, clock, .returned (.rejected "NONCE_REPLAY_DETECTED")⟩ ∧
      f.AcceptedOnce clientCrypto := by
  have hexec : ((fleetMachine clientCrypto fun _ : Fin 2 => ⟨10, 10⟩).exec
      (fun u a => commitsRecord a.1 (u.member a.1) a.2) (.fresh 2 ⟨[], []⟩) restartRun).map
      (fun f => (f.members 1).calls 0) =
      some (some ⟨aliceFirst, clock, .returned (.rejected "NONCE_REPLAY_DETECTED")⟩) := by
    decide +kernel
  obtain ⟨f, hpath, hcall⟩ := Machine.exists_path_of_exec hexec
  have hplain : SpelledOnce clientCrypto
      {r | isPlain r.clientPubkey = true ∧ isPlain r.nonce = true} :=
    spelledOnce_of_plain fun _ hr => hr
  have hrequests : ∀ k now r, (k, Act.submit now r) ∈ restartRun →
      r = aliceFirst ∨ r = aliceSecond := by
    intro k now r hr
    simp only [restartRun, stepsOf, submission, List.cons_append, List.nil_append, List.map_cons,
      List.map_nil, List.mem_cons, Prod.mk.injEq, Act.submit.injEq, reduceCtorEq, and_false,
      false_or, List.not_mem_nil, or_false] at hr
    rcases hr with ⟨-, -, rfl⟩ | ⟨-, -, rfl⟩ | ⟨-, -, rfl⟩
    · exact .inl rfl
    · exact .inl rfl
    · exact .inr rfl
  refine ⟨f, hpath, hcall, (accepted_once clientCrypto _).mpr hplain 2 _ _ f _
    ⟨_, rfl, rfl⟩ hpath fun k now r hr => ?_⟩
  rcases hrequests k now r hr with rfl | rfl
  · exact ⟨by decide +kernel, by decide +kernel⟩
  · exact ⟨by decide +kernel, by decide +kernel⟩

end Tollbridge
end SovereignSeed
