import Mathlib.Data.List.Induction
import Mathlib.Logic.Function.Basic
import Nexus.Common
import Nexus.Lib.Run

/-!
# The health of the nodes behind the ingress

`ingress/health_check.hpp`. A node goes down after some failures in a row and comes back after some
successes in a row. `HealthChecker.down_iff` says the same of the results of the node alone, without
the counters, whatever is observed of the other nodes in between.
-/

namespace Nexus

open Lib List

structure HealthCheckConfig where
  failureThreshold : Nat := 3
  successThreshold : Nat := 2

structure NodeHealth where
  healthy : Bool := true
  failures : Nat := 0
  successes : Nat := 0

structure HealthChecker where
  config : HealthCheckConfig := {}
  nodes : NodeId → Option NodeHealth := fun _ => none

variable {cfg : HealthCheckConfig} {n : Nat} {b r : Bool} {rs : List Bool}

/-- What `observe` does to the record of its node. -/
def NodeHealth.observe (cfg : HealthCheckConfig) (health : NodeHealth) (ok : Bool) : NodeHealth :=
  if ok then
    let successes := health.successes + 1
    { failures := 0, successes
      healthy := if !health.healthy && decide (successes ≥ cfg.successThreshold) then true
        else health.healthy }
  else
    let failures := health.failures + 1
    { failures, successes := 0
      healthy := if health.healthy && decide (failures ≥ cfg.failureThreshold) then false
        else health.healthy }

namespace HealthChecker

def observe (h : HealthChecker) (result : NodeId × Bool) : HealthChecker :=
  { h with
    nodes := Function.update h.nodes result.1
      (some (((h.nodes result.1).getD {}).observe h.config result.2)) }

def healthy (h : HealthChecker) (node : NodeId) : Bool :=
  match h.nodes node with
  | none => true
  | some health => health.healthy

/-- At some time the last results were failures, as many as the threshold and at least one; at no
time since then were the last ones successes, as many as theirs. -/
def Down (cfg : HealthCheckConfig) (rs : List Bool) : Prop :=
  ∃ pre post, rs = pre ++ post ∧ replicate (max 1 cfg.failureThreshold) false <:+ pre ∧
    ∀ mid, mid <+: post → ¬ replicate (max 1 cfg.successThreshold) true <:+ pre ++ mid

theorem replicate_suffix_concat :
    replicate n b <:+ rs ++ [r] ↔ n = 0 ∨ b = r ∧ replicate (n - 1) b <:+ rs := by
  cases n with
  | zero => simp
  | succ n =>
    rw [replicate_succ', suffix_concat_iff]
    constructor
    · rintro (h | ⟨t, h, ht⟩)
      · simp at h
      · obtain ⟨rfl, hb⟩ := append_inj' h rfl
        exact .inr ⟨by simpa using hb, ht⟩
    · rintro (h | ⟨rfl, h⟩)
      · cases h
      · exact .inr ⟨_, rfl, h⟩

/-- One more result. -/
theorem down_concat : Down cfg (rs ++ [r]) ↔
    replicate (max 1 cfg.failureThreshold) false <:+ rs ++ [r] ∨
    Down cfg rs ∧ ¬ replicate (max 1 cfg.successThreshold) true <:+ rs ++ [r] := by
  constructor
  · rintro ⟨pre, post, heq, hfail, hmid⟩
    rcases eq_nil_or_concat post with rfl | ⟨post, x, rfl⟩
    · rw [append_nil] at heq
      exact .inl (heq ▸ hfail)
    · refine .inr ⟨?_, by rw [heq]; exact hmid _ (prefix_refl _)⟩
      rw [concat_eq_append, ← append_assoc] at heq
      obtain ⟨rfl, -⟩ := append_inj' heq rfl
      exact ⟨pre, post, rfl, hfail, fun mid h => hmid mid (h.trans (by simp))⟩
  · rintro (hfail | ⟨⟨pre, post, rfl, hfail, hmid⟩, hlast⟩)
    · refine ⟨_, [], (append_nil _).symm, hfail, fun mid h hok => ?_⟩
      rw [prefix_nil.mp h, append_nil] at hok
      rw [replicate_suffix_concat] at hfail hok
      have := hfail.resolve_left (by omega)
      have := hok.resolve_left (by omega)
      simp_all
    · refine ⟨pre, post ++ [r], append_assoc .., hfail, fun mid h => ?_⟩
      rcases prefix_concat_iff.mp h with rfl | h
      · rwa [← append_assoc]
      · exact hmid mid h

/-- The counters count the results at the end, and the flag is what they led to. -/
structure Reflects (cfg : HealthCheckConfig) (health : NodeHealth) (rs : List Bool) : Prop where
  successes : ∀ n, replicate n true <:+ rs ↔ n ≤ health.successes
  failures : ∀ n, replicate n false <:+ rs ↔ n ≤ health.failures
  down : health.healthy = false ↔ Down cfg rs

theorem reflects_nil : Reflects cfg {} [] where
  successes n := by simp
  failures n := by simp
  down := by
    refine iff_of_false (by simp) ?_
    rintro ⟨pre, post, heq, hfail, -⟩
    obtain ⟨rfl, -⟩ := append_eq_nil_iff.mp heq.symm
    have := hfail.length_le
    simp at this

theorem Reflects.observe {health : NodeHealth} (h : Reflects cfg health rs) (r : Bool) :
    Reflects cfg (health.observe cfg r) (rs ++ [r]) where
  successes n := by
    rw [replicate_suffix_concat, h.successes]
    cases r <;> simp [NodeHealth.observe]
    omega
  failures n := by
    rw [replicate_suffix_concat, h.failures]
    cases r <;> simp [NodeHealth.observe]
    omega
  down := by
    rw [down_concat, ← h.down, replicate_suffix_concat, replicate_suffix_concat, h.successes,
      h.failures]
    cases r <;> cases hh : health.healthy <;> simp [NodeHealth.observe, hh] <;> omega

/-- The results that were observed of a node. -/
def resultsOf (node : NodeId) (results : List (NodeId × Bool)) : List Bool :=
  (results.filter fun result => result.1 = node).map Prod.snd

theorem reflects_run (cfg : HealthCheckConfig) (results : List (NodeId × Bool)) (node : NodeId) :
    let h := run observe { config := cfg } results
    h.config = cfg ∧ Reflects cfg ((h.nodes node).getD {}) (resultsOf node results) := by
  induction results using List.reverseRecOn with
  | nil => exact ⟨rfl, reflects_nil⟩
  | append_singleton results result ih =>
    obtain ⟨hcfg, ih⟩ := ih
    rw [run_append]
    refine ⟨hcfg, ?_⟩
    by_cases hnode : result.1 = node
    · subst hnode
      simpa [observe, resultsOf, hcfg] using ih.observe result.2
    · simpa [observe, resultsOf, hnode, Function.update_of_ne (Ne.symm hnode)] using ih

/-- Whatever is observed, and in whatever order, a node counts as down just when its own results
say so. -/
theorem down_iff (cfg : HealthCheckConfig) (results : List (NodeId × Bool)) (node : NodeId) :
    (run observe { config := cfg } results).healthy node = false ↔
      Down cfg (resultsOf node results) := by
  rw [← (reflects_run cfg results node).2.down, healthy]
  split <;> simp [*]

end HealthChecker

end Nexus
