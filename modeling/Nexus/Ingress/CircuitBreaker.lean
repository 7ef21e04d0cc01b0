import Mathlib.Data.Finset.Card
import Mathlib.Data.Finset.Dedup
import Mathlib.Data.Rat.Defs
import Nexus.Lib.Run

/-!
# The circuit breaker of the ingress

`ingress/circuit_breaker.cpp`. The error rate is an exact fraction here, where the code divides
two `double`s.

* `Follows`: the ring of results with its running count of failures, against all the results
  since the breaker was last closed.
* `Traffic`: the operations that `allow` admits, each of which reports once, at any later time.
  A report does not say which operation it belongs to, so the breaker cannot tell a probe from an
  operation that it admitted before it opened.
-/

namespace Nexus

open Lib List

inductive CircuitState
  | closed | opened | halfOpen
  deriving DecidableEq

structure CircuitBreakerConfig where
  windowSize : Nat := 20
  minSamples : Nat := 10
  failureRatio : Rat := 1 / 2
  openTimeout : Int := 5000
  halfOpenProbes : Nat := 3

structure CircuitBreaker where
  state : CircuitState := .closed
  /-- A ring of results, `true` for a failure. -/
  window : List Bool
  /-- The cell that is written next. -/
  head : Nat := 0
  count : Nat := 0
  failures : Nat := 0
  openedAt : Int := 0
  probesIssued : Nat := 0
  probeSuccesses : Nat := 0
  deriving DecidableEq

namespace CircuitBreaker

variable (cfg : CircuitBreakerConfig) (b : CircuitBreaker)

/-- The constructor. -/
def ofConfig : CircuitBreaker := { window := List.replicate (max 1 cfg.windowSize) false }

def tripOpen (now : Int) : CircuitBreaker := { b with state := .opened, openedAt := now }

def enterHalfOpen : CircuitBreaker :=
  { b with state := .halfOpen, probesIssued := 0, probeSuccesses := 0 }

def close : CircuitBreaker :=
  { b with
    state := .closed
    window := List.replicate b.window.length false
    head := 0
    count := 0
    failures := 0 }

def record (failure : Bool) : CircuitBreaker :=
  -- A failure that is about to be overwritten leaves the count first.
  let failures := if b.count = b.window.length ∧ b.window[b.head]? = some true
    then b.failures - 1 else b.failures
  { b with
    window := b.window.set b.head failure
    failures := if failure then failures + 1 else failures
    head := (b.head + 1) % b.window.length
    count := min (b.count + 1) b.window.length }

def windowFailureRatio : Rat :=
  if b.count < cfg.minSamples then 0 else (b.failures : Rat) / b.count

def allow (now : Int) : Bool × CircuitBreaker :=
  match b.state with
  | .closed => (true, b)
  | .opened =>
    if cfg.openTimeout ≤ now - b.openedAt then
      (true, { b.enterHalfOpen with probesIssued := b.enterHalfOpen.probesIssued + 1 })
    else (false, b)
  | .halfOpen =>
    if b.probesIssued < cfg.halfOpenProbes then
      (true, { b with probesIssued := b.probesIssued + 1 })
    else (false, b)

def onSuccess : CircuitBreaker :=
  match b.state with
  | .closed => b.record false
  | .halfOpen =>
    let b := { b with probeSuccesses := b.probeSuccesses + 1 }
    if cfg.halfOpenProbes ≤ b.probeSuccesses then b.close else b
  | .opened => b

def onFailure (now : Int) : CircuitBreaker :=
  match b.state with
  | .closed =>
    let b := b.record true
    if cfg.failureRatio ≤ b.windowFailureRatio cfg then b.tripOpen now else b
  | .halfOpen => b.tripOpen now
  | .opened => b

inductive Call
  | allow (now : Int)
  | onSuccess
  | onFailure (now : Int)

def step : Call → CircuitBreaker
  | .allow now => (b.allow cfg now).2
  | .onSuccess => b.onSuccess cfg
  | .onFailure now => b.onFailure cfg now

/-! ## The ring and the history -/

/-- The last `n` results, all of them while there are fewer. -/
def latest (n : Nat) (rs : List Bool) : List Bool := rs.drop (rs.length - n)

@[simp] theorem length_latest (n : Nat) (rs : List Bool) :
    (latest n rs).length = min rs.length n := by
  simp [latest]; omega

/-- One more result pushes the oldest one out of a full window. -/
theorem count_latest_concat {n : Nat} (hn : 0 < n) (rs : List Bool) (r : Bool) :
    (latest n (rs ++ [r])).count true =
      (if n ≤ rs.length ∧ rs[rs.length - n]? = some true then (latest n rs).count true - 1
        else (latest n rs).count true) + if r then 1 else 0 := by
  by_cases hfull : n ≤ rs.length
  · have hlt : rs.length - n < rs.length := by omega
    have hnext : rs.length + 1 - n = rs.length - n + 1 := by omega
    have hle : rs.length - n + 1 ≤ rs.length := by omega
    simp only [latest, length_append, length_singleton, hnext,
      drop_append_of_le_length hle, drop_eq_getElem_cons hlt,
      getElem?_eq_getElem hlt, count_append]
    grind
  · have hall : rs.length + 1 - n = 0 := by omega
    have hall' : rs.length - n = 0 := by omega
    simp only [latest, length_append, length_singleton, hall, hall', drop_zero,
      count_append]
    grind

/-- Two positions less than one turn apart share no cell. -/
theorem mod_ne_mod {n i j : Nat} (hij : i < j) (hj : j < i + n) : i % n ≠ j % n := by
  intro h
  have hdvd : (j - i) % n = 0 := Nat.sub_mod_eq_zero_of_mod_eq h.symm
  rw [Nat.mod_eq_of_lt (by omega)] at hdvd
  omega

/-- The breaker holds the last `n` of the results `rs`. -/
structure Follows (n : Nat) (b : CircuitBreaker) (rs : List Bool) : Prop where
  size : b.window.length = n
  head : b.head = rs.length % n
  count : b.count = min rs.length n
  failures : b.failures = (latest n rs).count true
  cells : ∀ j, j < rs.length → rs.length ≤ j + n → b.window[j % n]? = rs[j]?

variable {cfg b} {n : Nat} {rs : List Bool}

theorem Follows.nil : Follows (max 1 cfg.windowSize) (ofConfig cfg) [] := by
  constructor <;> simp [ofConfig, latest]

theorem Follows.close (h : Follows n b rs) : Follows n b.close [] := by
  constructor <;> simp [CircuitBreaker.close, latest, h.size]

/-- The cell that `record` overwrites held the oldest result of a full window. -/
theorem Follows.oldest (h : Follows n b rs) (hn : 0 < n) (hfull : n ≤ rs.length) :
    b.window[b.head]? = rs[rs.length - n]? := by
  rw [← h.cells (rs.length - n) (by omega) (by omega), h.head,
    ← Nat.add_mod_right (rs.length - n) n, Nat.sub_add_cancel hfull]

theorem Follows.record (h : Follows n b rs) (hn : 0 < n) (r : Bool) :
    Follows n (b.record r) (rs ++ [r]) := by
  have hlt : b.head < b.window.length := by
    rw [h.head, h.size]
    exact Nat.mod_lt _ hn
  refine ⟨by simp [CircuitBreaker.record, h.size], ?_, ?_, ?_, ?_⟩
  · simp [CircuitBreaker.record, h.head, h.size]
  · simp [CircuitBreaker.record, h.count, h.size]
    omega
  · have hcount := count_latest_concat hn rs r
    have hold := h.oldest hn
    simp only [CircuitBreaker.record, h.count, h.size, h.failures]
    grind
  · intro j hj hnear
    simp only [length_append, length_singleton] at hj hnear
    simp only [CircuitBreaker.record, getElem?_set, h.head, h.size]
    rcases Nat.lt_succ_iff_lt_or_eq.mp hj with hj | rfl
    · rw [if_neg (mod_ne_mod hj (by omega)).symm, h.cells j hj (by omega),
        getElem?_append_left hj]
    · simp [Nat.mod_lt _ hn]

/-- What the call adds to the results since the breaker was last closed. -/
def recorded (b b' : CircuitBreaker) (rs : List Bool) (call : Call) : List Bool :=
  match b.state, b'.state, call with
  | .halfOpen, .closed, _ => []
  | .closed, _, .onSuccess => rs ++ [false]
  | .closed, _, .onFailure _ => rs ++ [true]
  | _, _, _ => rs

/-- The breaker with the results since it was last closed. -/
def watch (cfg : CircuitBreakerConfig) (w : CircuitBreaker × List Bool) (call : Call) :
    CircuitBreaker × List Bool :=
  (w.1.step cfg call, recorded w.1 (w.1.step cfg call) w.2 call)

@[simp] theorem state_record (r : Bool) : (b.record r).state = b.state := rfl

@[simp] theorem state_close : b.close.state = .closed := rfl

@[simp] theorem state_tripOpen (now : Int) : (b.tripOpen now).state = .opened := rfl

/-- Only the ring and its counters are followed. -/
theorem Follows.congr {b' : CircuitBreaker} (h : Follows n b rs) (hw : b'.window = b.window)
    (hh : b'.head = b.head) (hc : b'.count = b.count) (hf : b'.failures = b.failures) :
    Follows n b' rs :=
  ⟨hw ▸ h.size, hh ▸ h.head, hc ▸ h.count, hf ▸ h.failures, hw ▸ h.cells⟩

theorem Follows.step (h : Follows n b rs) (hn : 0 < n) (call : Call) :
    Follows n (watch cfg (b, rs) call).1 (watch cfg (b, rs) call).2 := by
  cases hs : b.state with
  | closed =>
    cases call with
    | allow now => simpa [watch, CircuitBreaker.step, allow, recorded, hs] using h
    | onSuccess => simpa [watch, CircuitBreaker.step, onSuccess, recorded, hs] using h.record hn _
    | onFailure now =>
      have hr := h.record hn true
      simp only [watch, CircuitBreaker.step, onFailure, recorded, hs]
      split
      · exact hr.congr rfl rfl rfl rfl
      · exact hr
  | opened =>
    cases call with
    | allow now =>
      simp only [watch, CircuitBreaker.step, allow, recorded, hs]
      split
      · exact h.congr rfl rfl rfl rfl
      · exact h
    | onSuccess => simpa [watch, CircuitBreaker.step, onSuccess, recorded, hs] using h
    | onFailure now => simpa [watch, CircuitBreaker.step, onFailure, recorded, hs] using h
  | halfOpen =>
    cases call with
    | allow now =>
      simp only [watch, CircuitBreaker.step, allow, recorded, hs]
      split
      · exact h.congr rfl rfl rfl rfl
      · simpa [hs] using h
    | onSuccess =>
      simp only [watch, CircuitBreaker.step, onSuccess, recorded, hs]
      split
      · exact Follows.close (h.congr rfl rfl rfl rfl)
      · exact h.congr rfl rfl rfl rfl
    | onFailure now =>
      simp only [watch, CircuitBreaker.step, onFailure, recorded, hs]
      exact h.congr rfl rfl rfl rfl

/-- The breaker and its results after the calls. -/
def watched (cfg : CircuitBreakerConfig) (calls : List Call) : CircuitBreaker × List Bool :=
  run (watch cfg) (ofConfig cfg, []) calls

theorem follows_watched (cfg : CircuitBreakerConfig) (calls : List Call) :
    Follows (max 1 cfg.windowSize) (watched cfg calls).1 (watched cfg calls).2 :=
  run_invariant (I := fun w : CircuitBreaker × List Bool => Follows _ w.1 w.2)
    (P := fun _ _ => True) (fun _ call h _ => h.step (by omega) call) .nil
    (along_of_forall (fun _ _ => trivial) _ _)

/-- The rule for opening: enough results, and the failures among them reach the ratio. -/
def Due (cfg : CircuitBreakerConfig) (rs : List Bool) : Prop :=
  cfg.minSamples ≤ rs.length ∧ cfg.failureRatio ≤ (rs.count true : Rat) / rs.length

instance (cfg : CircuitBreakerConfig) (rs : List Bool) : Decidable (Due cfg rs) :=
  inferInstanceAs (Decidable (_ ∧ _))

/-- After a failure in the closed state the ring gives the fraction of the latest results. -/
theorem Follows.ratio_le_iff (h : Follows n b rs) (cfg : CircuitBreakerConfig) :
    cfg.failureRatio ≤ b.windowFailureRatio cfg ↔
      Due cfg (latest n rs) ∨ (latest n rs).length < cfg.minSamples ∧ cfg.failureRatio ≤ 0 := by
  simp only [windowFailureRatio, Due, h.count, h.failures, length_latest]
  grind

end CircuitBreaker

/-! ## Operations that report later -/

open CircuitBreaker

/-- The breaker with the operations that it admitted. -/
structure Traffic where
  breaker : CircuitBreaker
  /-- How often the breaker became half open. -/
  period : Nat := 0
  /-- For each operation, in the order of admission, the half-open period that admitted it;
  `none` for one that was admitted in the closed state. -/
  admitted : List (Option Nat) := []
  /-- The operations that have reported. -/
  reported : List Nat := []
  /-- Those that reported success while the breaker was half open for the last time. -/
  succeeded : List Nat := []

namespace Traffic

inductive Event
  | request (now : Int)
  | succeed (op : Nat)
  | fail (op : Nat) (now : Int)

variable (cfg : CircuitBreakerConfig) (t : Traffic)

def ofConfig : Traffic := { breaker := CircuitBreaker.ofConfig cfg }

/-- The operation was admitted and has not reported yet. -/
def InFlight (op : Nat) : Prop := op < t.admitted.length ∧ op ∉ t.reported

instance (op : Nat) : Decidable (t.InFlight op) := inferInstanceAs (Decidable (_ ∧ _))

/-- The operation was admitted in the half-open period that is the last one. -/
def Own (op : Nat) : Prop := t.admitted[op]? = some (some t.period)

instance (op : Nat) : Decidable (t.Own op) := inferInstanceAs (Decidable (_ = _))

def request (now : Int) : Traffic :=
  let (granted, breaker) := t.breaker.allow cfg now
  let entered : Bool := t.breaker.state = .opened ∧ breaker.state = .halfOpen
  let period := if entered then t.period + 1 else t.period
  { t with
    breaker
    period
    succeeded := if entered then [] else t.succeeded
    admitted := if granted
      then t.admitted ++ [if breaker.state = .halfOpen then some period else none]
      else t.admitted }

/-- A report; an operation that is not in flight has none to make. -/
def step : Event → Traffic
  | .request now => t.request cfg now
  | .succeed op =>
    if t.InFlight op then
      { t with
        breaker := t.breaker.onSuccess cfg
        reported := op :: t.reported
        succeeded := if t.breaker.state = .halfOpen then op :: t.succeeded else t.succeeded }
    else t
  | .fail op now =>
    if t.InFlight op then
      { t with breaker := t.breaker.onFailure cfg now, reported := op :: t.reported }
    else t

/-- As many operations as there are probes, admitted in the last half-open period, have reported
success in it. -/
def Recovered : Prop :=
  ∃ ops : Finset Nat, ops.card = cfg.halfOpenProbes ∧ ∀ op ∈ ops, op ∈ t.succeeded ∧ t.Own op

/-- The probe count of the breaker is the number of operations that reported success. -/
structure Counts (t : Traffic) : Prop where
  nodup : t.succeeded.Nodup
  reported : t.succeeded ⊆ t.reported
  probes : t.breaker.state = .halfOpen → t.breaker.probeSuccesses = t.succeeded.length ∧
    t.succeeded.length < cfg.halfOpenProbes

variable {cfg t}

theorem request_refused {now : Int} (h : t.breaker.allow cfg now = (false, t.breaker)) :
    t.request cfg now = t := by
  cases hs : t.breaker.state <;> simp [Traffic.request, h, hs]

theorem Counts.request (h : Counts cfg t) (hprobes : 1 ≤ cfg.halfOpenProbes) (now : Int) :
    Counts cfg (t.request cfg now) := by
  cases hs : t.breaker.state with
  | closed => constructor <;> simp [Traffic.request, allow, hs, h.nodup, h.reported]
  | opened =>
    by_cases hdue : cfg.openTimeout ≤ now - t.breaker.openedAt
    · constructor <;> simp [Traffic.request, allow, enterHalfOpen, hs, hdue]
      omega
    · rwa [request_refused (by simp [allow, hs, hdue])]
  | halfOpen =>
    by_cases hfree : t.breaker.probesIssued < cfg.halfOpenProbes
    · constructor <;> simp [Traffic.request, allow, hs, hfree, h.nodup, h.reported, h.probes hs]
    · rwa [request_refused (by simp [allow, hs, hfree])]

/-- What the success of an operation in flight does to the counts, and when it closes the
breaker. -/
theorem Counts.succeed (h : Counts cfg t) {op : Nat} (hop : t.InFlight op) :
    Counts cfg (t.step cfg (.succeed op)) ∧ (t.breaker.state = .halfOpen →
      (t.step cfg (.succeed op)).breaker.state = .closed →
        (t.step cfg (.succeed op)).succeeded.length = cfg.halfOpenProbes) := by
  have hnew : op ∉ t.succeeded := fun hmem => hop.2 (h.reported hmem)
  have hsub : t.succeeded ⊆ op :: t.reported := subset_cons_of_subset _ h.reported
  simp only [Traffic.step, hop, if_true]
  cases hs : t.breaker.state with
  | closed => refine ⟨⟨?_, ?_, ?_⟩, ?_⟩ <;> simp [onSuccess, hs, h.nodup, hsub]
  | opened => refine ⟨⟨?_, ?_, ?_⟩, ?_⟩ <;> simp [onSuccess, hs, h.nodup, hsub]
  | halfOpen =>
    obtain ⟨hcount, hlt⟩ := h.probes hs
    refine ⟨⟨by simp [h.nodup, hnew], by simp [hsub], ?_⟩, ?_⟩
    · simp only [onSuccess, hs]
      split <;> simp_all
    · simp only [onSuccess, hs]
      split <;> simp_all
      omega

theorem Counts.step (h : Counts cfg t) (hprobes : 1 ≤ cfg.halfOpenProbes) (e : Event) :
    Counts cfg (t.step cfg e) := by
  cases e with
  | request now => exact h.request hprobes now
  | succeed op =>
    by_cases hop : t.InFlight op
    · exact (h.succeed hop).1
    · simpa [Traffic.step, hop] using h
  | fail op now =>
    by_cases hop : t.InFlight op
    · have hstate : (t.breaker.onFailure cfg now).state ≠ .halfOpen := by
        unfold onFailure
        cases hs : t.breaker.state <;> grind [tripOpen, CircuitBreaker.record]
      simp only [Traffic.step, hop, if_true]
      exact ⟨h.nodup, subset_cons_of_subset _ h.reported, fun hs => absurd hs hstate⟩
    · simpa [Traffic.step, hop] using h

theorem counts_run (hprobes : 1 ≤ cfg.halfOpenProbes) (es : List Event) :
    Counts cfg (run (step cfg) (ofConfig cfg) es) := by
  refine run_invariant (P := fun _ _ => True) (fun t e h _ => h.step hprobes e) ?_
    (along_of_forall (fun _ _ => trivial) _ _)
  constructor <;> simp [ofConfig, CircuitBreaker.ofConfig]

/-- Only a success takes the breaker from half open to closed. -/
theorem closes_by_success {e : Event} (hhalf : t.breaker.state = .halfOpen)
    (hclosed : (t.step cfg e).breaker.state = .closed) :
    ∃ op, t.InFlight op ∧ e = .succeed op := by
  cases e with
  | request now =>
    simp only [Traffic.step, Traffic.request, allow, hhalf] at hclosed
    grind
  | succeed op =>
    simp only [Traffic.step] at hclosed
    grind
  | fail op now =>
    simp only [Traffic.step, onFailure, hhalf] at hclosed
    grind [tripOpen]

/-- A half-open breaker that closes has recovered exactly when each success that it counted
belongs to an operation of that half-open period. -/
theorem recovered_iff_own (cfg : CircuitBreakerConfig) (hprobes : 1 ≤ cfg.halfOpenProbes)
    (es : List Event) (e : Event)
    (hhalf : (run (step cfg) (ofConfig cfg) es).breaker.state = .halfOpen)
    (hclosed : (run (step cfg) (ofConfig cfg) (es ++ [e])).breaker.state = .closed) :
    (run (step cfg) (ofConfig cfg) (es ++ [e])).Recovered cfg ↔
      ∀ op ∈ (run (step cfg) (ofConfig cfg) (es ++ [e])).succeeded,
        (run (step cfg) (ofConfig cfg) (es ++ [e])).Own op := by
  have hafter := counts_run hprobes (es ++ [e])
  have hbefore := counts_run hprobes es
  have hlast : run (step cfg) (ofConfig cfg) (es ++ [e]) =
      step cfg (run (step cfg) (ofConfig cfg) es) e := by simp [run_append]
  have hlength : (run (step cfg) (ofConfig cfg) (es ++ [e])).succeeded.length
      = cfg.halfOpenProbes := by
    rw [hlast] at hclosed ⊢
    obtain ⟨op, hop, rfl⟩ := closes_by_success hhalf hclosed
    exact (hbefore.succeed hop).2 hhalf hclosed
  have hcard := List.toFinset_card_of_nodup hafter.nodup
  constructor
  · rintro ⟨ops, hops, hown⟩ op hmem
    -- As many operations as were counted, all of them among those counted.
    have hall : ops = List.toFinset _ := Finset.eq_of_subset_of_card_le
      (fun op hop => List.mem_toFinset.mpr (hown op hop).1) (by omega)
    exact (hown op (by rw [hall]; exact List.mem_toFinset.mpr hmem)).2
  · intro hown
    refine ⟨_, hcard.trans hlength, fun op hop => ?_⟩
    have hmem := List.mem_toFinset.mp hop
    exact ⟨hmem, hown op hmem⟩

/-- One failure opens the breaker; the probe after the timeout succeeds and closes it. -/
theorem recovered_iff_own_probe :
    Recovered { minSamples := 1, halfOpenProbes := 1 }
      (run (step { minSamples := 1, halfOpenProbes := 1 })
        (ofConfig { minSamples := 1, halfOpenProbes := 1 })
        ([.request 0, .fail 0 0, .request 5000] ++ [.succeed 1])) :=
  (recovered_iff_own { minSamples := 1, halfOpenProbes := 1 } (by decide) _ _
    (by decide +kernel) (by decide +kernel)).mpr (by decide +kernel)

/-- A slow operation from before the breaker opened reports success while the only probe is still
on its way: the breaker closes, and no probe has reported. -/
theorem closes_without_recovery :
    let cfg : CircuitBreakerConfig := { minSamples := 1, halfOpenProbes := 1 }
    let t := run (step cfg) (ofConfig cfg) [.request 0, .request 0, .fail 0 0, .request 5000]
    let t' := t.step cfg (.succeed 1)
    t.breaker.state = .halfOpen ∧ t'.breaker.state = .closed ∧ t.InFlight 1 ∧ ¬ t'.Own 1 ∧
      t'.InFlight 2 ∧ t'.Own 2 ∧ ¬ t'.Recovered cfg := by
  intro cfg t t'
  have hsucceeded : t'.succeeded = [1] := by decide +kernel
  have hown : ¬ t'.Own 1 := by decide +kernel
  refine ⟨by decide +kernel, by decide +kernel, by decide +kernel, hown, by decide +kernel,
    by decide +kernel, ?_⟩
  rintro ⟨ops, hcard, hall⟩
  obtain ⟨op, rfl⟩ := Finset.card_eq_one.mp hcard
  obtain ⟨hmem, hop⟩ := hall op (Finset.mem_singleton_self op)
  rw [hsucceeded, List.mem_singleton] at hmem
  exact hown (hmem ▸ hop)

end Traffic

end Nexus
