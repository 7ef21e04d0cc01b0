import Nexus.Broker.ReplicatedPartition
import Nexus.Consensus.Safety

/-!
# The high watermark over a run

`high_watermark` looks up the entry at the commit index and falls back to the start of the log. The
fallback is right as long as the log starts where the snapshot ends, which a compaction at the
commit index does only if a segment starts there (`Cluster.Aligned`). In such runs the watermark
of every partition is the end of its committed entries, and so never decreases
(`Cluster.high_watermark`).

* `RaftLog.SameFloor`: what every operation but a compaction and a snapshot installation leaves.
* `RaftNode.FloorOk`: the fallback of the lookup is right.
-/

namespace Nexus

open Lib Lib.TermLog RaftLog List

/-! ## Where the log starts -/

namespace PartitionLog

variable {offset : Int} {l l' : PartitionLog}

/-- A segment starts at the offset. -/
def StartsAt (l : PartitionLog) (offset : Int) : Prop :=
  ∃ s ∈ l.segments, s.baseOffset = offset

instance (l : PartitionLog) (offset : Int) : Decidable (l.StartsAt offset) :=
  inferInstanceAs (Decidable (∃ s ∈ _, _))

/-- The oldest segment that is kept starts at the offset, if one does. -/
theorem dropPrefix_baseOffset {o : Int} (older : List Segment) (active : Segment)
    (h : Layout o (older ++ [active])) (hs : ∃ s ∈ older ++ [active], s.baseOffset = offset) :
    ((dropPrefix offset older active).headD active).baseOffset = offset := by
  induction older generalizing o with
  | nil =>
    obtain ⟨s, hs, hbase⟩ := hs
    rw [nil_append, mem_singleton] at hs
    exact hs ▸ hbase
  | cons s rest ih =>
    obtain ⟨hstart, hchain, hrest⟩ := h
    -- The successor of `s` starts where `s` ends.
    have hnext : rest.headD active ∈ rest ++ [active] ∧
        (rest.headD active).baseOffset = endOf o s.blocks := by
      cases rest with
      | nil => exact ⟨mem_singleton_self _, hrest.1⟩
      | cons r rest => exact ⟨mem_cons_self, hrest.1⟩
    have hge := hchain.le_endOf
    unfold dropPrefix
    split
    · rename_i hle
      refine ih hrest ?_
      obtain ⟨t, ht, hbase⟩ := hs
      rcases mem_cons.mp ht with rfl | ht
      · exact ⟨_, hnext.1, by omega⟩
      · exact ⟨t, ht, hbase⟩
    · rename_i hgt
      obtain ⟨t, ht, hbase⟩ := hs
      rcases mem_cons.mp ht with rfl | ht
      · exact hbase
      · have := hrest.le_baseOffset t ht
        omega

/-- A log that is cut where a segment starts begins there. -/
theorem Holds.logStartOffset_truncatePrefixTo {bs : List RecordBatch} (h : l.Holds bs)
    (hs : l.StartsAt offset) (hl : l.truncatePrefixTo offset = .ok l') :
    l'.logStartOffset = offset := by
  unfold PartitionLog.truncatePrefixTo at hl
  split_ifs at hl with hle
  · obtain ⟨s, hmem, hbase⟩ := hs
    have hge := h.layout.le_baseOffset s hmem
    cases hl
    omega
  · cases hl
  · cases hl
    exact dropPrefix_baseOffset l.older l.active h.layout hs

theorem logStartOffset_append {batch : RecordBatch} {last : Int}
    (h : l.append batch = .ok (l', last)) : l'.logStartOffset = l.logStartOffset := by
  unfold append at h
  dsimp only at h
  split at h
  · cases h
  · rename_i active last' hseg
    obtain ⟨p, b, hsync⟩ := maybeSync_eq
      { l.rolled with active, logEndOffset := last' + 1 }
      (batch.rebase l.rolled.logEndOffset).encodedSize
    rw [hsync] at h
    cases h
    dsimp only
    unfold rolled
    split <;> rfl

theorem logStartOffset_truncateTo (h : l.truncateTo offset = .ok l') :
    l'.logStartOffset = l.logStartOffset := by
  unfold truncateTo at h
  split_ifs at h
  · cases h; rfl
  · cases h
  · cases h
  · dsimp only at h
    split at h
    · cases h
    · cases h; rfl

end PartitionLog

namespace RaftLog

variable {r r' : RaftLog} {k : Nat}

/-- The snapshot and the start of the log are the same. -/
structure SameFloor (r r' : RaftLog) : Prop where
  index : r'.snapshotIndex = r.snapshotIndex
  lastOffset : r'.snapshotLastOffset = r.snapshotLastOffset
  start : r'.log.logStartOffset = r.log.logStartOffset

theorem SameFloor.refl (r : RaftLog) : r.SameFloor r := ⟨rfl, rfl, rfl⟩

theorem SameFloor.trans {s t : RaftLog} (h : r.SameFloor s) (h' : s.SameFloor t) : r.SameFloor t :=
  ⟨h'.index.trans h.index, h'.lastOffset.trans h.lastOffset, h'.start.trans h.start⟩

theorem sameFloor_append (r : RaftLog) (fails : Option Nat) (es : List RaftLogEntry) :
    r.SameFloor (r.append fails es).1 := by
  induction es generalizing r fails with
  | nil => rw [append]; exact .refl r
  | cons e es ih =>
    by_cases hfail : fails = some 0
    · subst hfail
      rw [append]; exact .refl r
    cases happ : r.log.append e.payload with
    | error err =>
      rw [append, happ]
      · exact .refl r
      · exact hfail
    | ok out =>
      rw [append_cons hfail happ]
      refine SameFloor.trans ?_ (ih _ _)
      exact ⟨rfl, rfl, PartitionLog.logStartOffset_append happ⟩

theorem sameFloor_truncateFrom {index : Nat} (h : r.truncateFrom index = .ok r') :
    r.SameFloor r' := by
  unfold truncateFrom at h
  split_ifs at h
  · cases h
  · cases h
  · cases h; exact .refl r
  · split at h
    · cases h; exact .refl r
    · split at h
      · cases h
      · rename_i hlog
        cases h
        exact ⟨rfl, rfl, PartitionLog.logStartOffset_truncateTo hlog⟩

theorem sameFloor_appendEntriesFrom (r : RaftLog) (io : LogIo) (es : List RaftLogEntry) :
    r.SameFloor (RaftNode.appendEntriesFrom r io es).1 := by
  induction es with
  | nil => exact .refl r
  | cons e es ih =>
    unfold RaftNode.appendEntriesFrom
    split_ifs
    · exact sameFloor_append r _ _
    · exact ih
    · exact .refl r
    · split
      · exact .refl r
      · rename_i r' hr'
        exact (sameFloor_truncateFrom hr').trans (sameFloor_append r' _ _)

/-- A segment starts right after the entry at `index`, as far as the log has that entry. -/
def Cuts (r : RaftLog) (index : Nat) : Prop :=
  match r.offsetsAt index with
  | .error _ => True
  | .ok offsets => r.log.StartsAt (offsets.2 + 1)

instance (r : RaftLog) (index : Nat) : Decidable (r.Cuts index) := by
  unfold Cuts
  cases r.offsetsAt index <;> infer_instance

/-- A compaction where a segment starts leaves nothing before the snapshot's end. -/
theorem View.logStartOffset_compactTo {full : List LogEntry} (h : r.View full)
    (hk : r.snapshotIndex < k) (hcuts : r.Cuts k) (hr : r.compactTo k = .ok r') :
    r'.log.logStartOffset = r'.snapshotLastOffset + 1 := by
  obtain ⟨d, -, hholds, -⟩ := h.log
  unfold RaftLog.compactTo at hr
  rw [if_neg (by omega)] at hr
  unfold Cuts offsetsAt at hcuts
  rw [if_neg (by omega)] at hcuts
  cases hb : r.entries[r.slotOf k]? with
  | none => rw [hb] at hr; cases hr
  | some boundary =>
    rw [hb] at hr hcuts
    dsimp only at hr hcuts
    split at hr
    · cases hr
    · rename_i log hlog
      cases hr
      exact hholds.logStartOffset_truncatePrefixTo hcuts hlog

theorem snapshotIndex_compactTo (hk : r.snapshotIndex < k) (hr : r.compactTo k = .ok r') :
    r'.snapshotIndex = k := by
  unfold compactTo at hr
  rw [if_neg (by omega)] at hr
  split at hr
  · cases hr
  · split at hr
    · cases hr
    · cases hr; rfl

theorem floor_resetTo {index term : Nat} {last : Int} (hr : r.resetTo index term last = .ok r') :
    r'.snapshotIndex = index ∧ r'.log.logStartOffset = r'.snapshotLastOffset + 1 := by
  unfold resetTo PartitionLog.resetTo at hr
  by_cases hneg : last + 1 < 0
  · rw [if_pos hneg] at hr; cases hr
  · rw [if_neg hneg] at hr
    cases hr
    exact ⟨rfl, rfl⟩

end RaftLog

/-- Only a snapshot installation and a compaction move the floor. -/
theorem Act.sameFloor {x : Cause} {c c' : Core} (h : Act x c c')
    (hinstall : ∀ src a, ¬ x.Handles src (.installSnapshot a)) (hcompact : x.compacts = false) :
    c.log.SameFloor c'.log := by
  cases h with
  | write batch fails => exact sameFloor_append _ _ _
  | append src a io => exact sameFloor_appendEntriesFrom _ _ _
  | install src a io hm => exact absurd hm (hinstall src a)
  | compact log hx => exact absurd (hcompact.symm.trans hx) (by simp)
  | _ => exact .refl _

theorem Acts.sameFloor {x : Cause} {c c' : Core} (h : Acts x c c')
    (hinstall : ∀ src a, ¬ x.Handles src (.installSnapshot a)) (hcompact : x.compacts = false) :
    c.log.SameFloor c'.log :=
  h.invariant (I := fun d => c.log.SameFloor d.log)
    (fun _ _ hd hact => hd.trans (hact.sameFloor hinstall hcompact)) (.refl _)

namespace RaftNode

variable {n : RaftNode} {full : List LogEntry}

/-- The snapshot covers committed entries only, and when it covers all of them the log starts
right after it. -/
structure FloorOk (n : RaftNode) : Prop where
  le : n.log.snapshotIndex ≤ n.commitIndex
  start : 0 < n.log.snapshotIndex → n.log.snapshotIndex = n.commitIndex →
    n.log.log.logStartOffset = n.log.snapshotLastOffset + 1

theorem FloorOk.of_sameFloor {m : RaftNode} (h : n.FloorOk) (hf : n.log.SameFloor m.log)
    (hc : n.commitIndex ≤ m.commitIndex) : m.FloorOk where
  le := by rw [hf.index]; exact Nat.le_trans h.le hc
  start hpos heq := by
    rw [hf.index] at hpos heq
    rw [hf.start, hf.lastOffset]
    exact h.start hpos (Nat.le_antisymm h.le (by omega))

/-- The watermark is the end of the committed entries. -/
theorem FloorOk.highWatermark (h : n.FloorOk) (hview : n.log.View full)
    (hc : n.commitIndex ≤ full.length) :
    n.highWatermark = endOf 0 (batches (full.take n.commitIndex)) := by
  unfold RaftNode.highWatermark
  by_cases h0 : n.commitIndex = 0
  · -- Nothing is committed and so nothing was dropped.
    obtain ⟨d, hd, -, hstart⟩ := hview.log
    have hle := h.le
    obtain rfl : d = 0 := by omega
    rw [if_pos h0, hstart, h0]
    rfl
  obtain ⟨e, he⟩ : ∃ e, full[n.commitIndex - 1]? = some e :=
    ⟨_, getElem?_eq_getElem (by omega)⟩
  have hend : endOf 0 (batches (full.take n.commitIndex)) = e.batch.lastOffset + 1 := by
    have := endOf_take_succ (o := 0) (batches_getElem? he)
    rwa [Nat.sub_add_cancel (by omega), ← batches_take] at this
  rw [if_neg h0, hend]
  unfold offsetsAt
  by_cases hlt : n.log.snapshotIndex < n.commitIndex
  · rw [if_neg (by omega), hview.getElem?_slotOf hlt, he]
    rfl
  · have heq : n.log.snapshotIndex = n.commitIndex := Nat.le_antisymm h.le (by omega)
    rw [if_pos (by omega)]
    dsimp only [makeError]
    rw [h.start (by omega) heq]
    have hsnap := hview.snapshot e (by omega) (by rw [heq]; exact he)
    rw [hsnap.2]

/-- Does the policy compact? -/
def CompactsNow (n : RaftNode) (threshold : Nat) : Prop :=
  0 < threshold ∧ n.log.snapshotIndex < n.commitIndex ∧
    threshold ≤ n.commitIndex - n.log.snapshotIndex

instance (n : RaftNode) (threshold : Nat) : Decidable (n.CompactsNow threshold) :=
  inferInstanceAs (Decidable (_ ∧ _ ∧ _))

theorem FloorOk.maybeCompact (h : n.FloorOk) (hview : n.log.View full) {threshold : Nat}
    (hcuts : n.CompactsNow threshold → n.log.Cuts n.commitIndex) :
    (n.maybeCompact threshold).FloorOk := by
  unfold RaftNode.maybeCompact
  split_ifs with h0 hskip
  · exact h
  · exact h
  · have hlt : n.log.snapshotIndex < n.commitIndex := by omega
    split
    · exact h
    · rename_i log hlog
      have hsnap := snapshotIndex_compactTo hlt hlog
      exact
        { le := Nat.le_of_eq hsnap
          start := fun _ _ => hview.logStartOffset_compactTo hlt
            (hcuts ⟨by omega, hlt, by omega⟩) hlog }

/-- The installation of the snapshot keeps the watermark right: the node's commit index follows it,
and when the log already has the entry a segment starts right after it. -/
def InstallsAligned (n : RaftNode) (io : LogIo) (args : InstallSnapshotArgs) : Prop :=
  let s := args.snapshot.lastIncludedIndex
  n.currentTerm ≤ args.term → n.log.snapshotIndex < s →
    (io.install = .persistFails → s ≤ n.commitIndex) ∧
    (n.commitIndex ≤ s → n.log.holds s args.snapshot.lastIncludedTerm → n.log.Cuts s)

instance (n : RaftNode) (io : LogIo) (args : InstallSnapshotArgs) :
    Decidable (n.InstallsAligned io args) := by
  unfold InstallsAligned; infer_instance

/-- The same, of any message. -/
def TakesAligned (n : RaftNode) (io : LogIo) : RaftPayload → Prop
  | .installSnapshot args => n.InstallsAligned io args
  | _ => True

instance (n : RaftNode) (io : LogIo) (payload : RaftPayload) :
    Decidable (n.TakesAligned io payload) := by
  unfold TakesAligned
  cases payload <;> infer_instance

/-- What an installation leaves: the same log, or one whose snapshot ends at `s`. In the second case
the log starts right after it, unless the entry was there and no segment starts after it. -/
theorem installSnapshot_floor (hview : n.log.View full) (io : InstallIo) {s term : Nat}
    {last : Int} (hs : n.log.snapshotIndex < s) {out : RaftLog × Bool}
    (hout : n.log.installSnapshot io s term last = out) :
    out = (n.log, false) ∨
    out.1.snapshotIndex = s ∧ (out.2 = false → io = .persistFails) ∧
      ((n.log.holds s term → n.log.Cuts s) →
        out.1.log.logStartOffset = out.1.snapshotLastOffset + 1) := by
  unfold installSnapshot at hout
  rw [if_neg (by omega)] at hout
  dsimp only at hout
  by_cases hholds : n.log.holds s term
  · rw [if_pos hholds] at hout
    cases hr : n.log.compactTo s with
    | error e => rw [hr] at hout; exact .inl hout.symm
    | ok r =>
      rw [hr] at hout
      subst hout
      refine .inr ⟨snapshotIndex_compactTo hs hr, by simp, fun hcuts => ?_⟩
      exact hview.logStartOffset_compactTo hs (hcuts hholds) hr
  · rw [if_neg hholds] at hout
    by_cases hio : io = .resetFails
    · rw [if_pos hio] at hout
      exact .inl hout.symm
    · rw [if_neg hio] at hout
      cases hr : n.log.resetTo s term last with
      | error e => rw [hr] at hout; exact .inl hout.symm
      | ok r =>
        rw [hr] at hout
        subst hout
        obtain ⟨hindex, hstart⟩ := floor_resetTo hr
        exact .inr ⟨hindex, by simp, fun _ => hstart⟩

theorem FloorOk.onInstallSnapshot (h : n.FloorOk) (hview : n.log.View full) {io : LogIo}
    {now : Int} {args : InstallSnapshotArgs} (ha : n.InstallsAligned io args) :
    (n.onInstallSnapshot io now args).1.FloorOk := by
  unfold RaftNode.onInstallSnapshot
  split
  · exact h
  rename_i hterm
  obtain ⟨hlog, hcommit⟩ := recogniseLeader_keeps (n := n) now args.leaderId
    (Nat.le_of_not_lt hterm)
  dsimp only
  generalize n.recogniseLeader now args.term args.leaderId = m at hlog hcommit ⊢
  have hm : m.FloorOk := h.of_sameFloor (by rw [hlog]; exact .refl _) (Nat.le_of_eq hcommit.symm)
  rw [hlog]
  have hle := h.le
  generalize hs : args.snapshot.lastIncludedIndex = s
  by_cases hnew : n.log.snapshotIndex < s
  · obtain ⟨hpersist, hcuts⟩ := ha (Nat.le_of_not_lt hterm) (hs ▸ hnew)
    rw [hs] at hpersist hcuts
    generalize hout : n.log.installSnapshot io.install s args.snapshot.lastIncludedTerm
      args.snapshot.lastIncludedOffset = out
    rcases installSnapshot_floor hview io.install hnew hout with rfl | ⟨hindex, hfail, hstart⟩
    · rw [if_neg (by simp)]
      exact h.of_sameFloor (.refl _) (Nat.le_of_eq hcommit.symm)
    · by_cases hc : out.2 = true ∧ s > (m.setLog out.1).commitIndex
      · rw [if_pos hc]
        exact ⟨Nat.le_of_eq hindex, fun _ _ => hstart (hcuts (by
          have := hc.2
          change s > m.commitIndex at this
          omega))⟩
      · rw [if_neg hc]
        have hsc : s ≤ n.commitIndex := by
          rw [← hcommit]
          cases hb : out.2 with
          | false => rw [hcommit]; exact hpersist (hfail hb)
          | true => exact Nat.le_of_not_lt fun hgt => hc ⟨hb, hgt⟩
        refine ⟨?_, fun _ heq => hstart (hcuts ?_)⟩
        · change out.1.snapshotIndex ≤ m.commitIndex
          omega
        · change out.1.snapshotIndex = m.commitIndex at heq
          omega
  · -- The snapshot is not newer than the node's own.
    have hsame : n.log.installSnapshot io.install s args.snapshot.lastIncludedTerm
        args.snapshot.lastIncludedOffset = (n.log, true) := if_pos (by omega)
    rw [hsame, if_neg (by
      change ¬ (true = true ∧ s > m.commitIndex)
      omega)]
    exact h.of_sameFloor (.refl _) (Nat.le_of_eq hcommit.symm)

end RaftNode

/-! ## Runs of a cluster -/

namespace Cluster

variable {voters learners : List NodeId} {c : Cluster} {e : Event} {v : NodeId} {a : History}

/-- The condition on events: a log is compacted at the commit index only where a segment starts, and
the same goes for a snapshot that a node installs, whose sidecars are also written. -/
def Aligned (c : Cluster) : Event → Prop
  | .compact v threshold =>
    (c.nodes v).CompactsNow threshold → (c.nodes v).log.Cuts (c.nodes v).commitIndex
  | .deliver k io _ => ∀ p ∈ c.net[k]?, (c.nodes p.msg.dst).TakesAligned io p.msg.payload
  | _ => True

instance (c : Cluster) (e : Event) : Decidable (c.Aligned e) := by
  unfold Aligned
  induction e using Event.casesOn <;> infer_instance

/-- The history, and the floor of every member's log. -/
structure WatermarkOk (voters learners : List NodeId) (c : Cluster) (a : History) : Prop where
  replication : c.ReplicationOk voters learners a
  floor : ∀ v ∈ c.members, (c.nodes v).FloorOk

theorem watermarkOk_init (hnd : (voters ++ learners).Nodup) (cfg : RaftConfig)
    (logCfg : LogConfig) :
    (init voters learners cfg logCfg).WatermarkOk voters learners TermLog.empty where
  replication := replicationOk_init hnd cfg logCfg
  floor _ _ := ⟨Nat.le_refl 0, fun h => absurd h (Nat.lt_irrefl 0)⟩

/-- The outbox is not part of the floor. -/
theorem floorOk_update {w : NodeId} {n : RaftNode} {ps : List Packet} (hn : n.FloorOk)
    (hw : (c.nodes w).FloorOk) : ((c.update v n ps).nodes w).FloorOk := by
  by_cases hwv : w = v
  · subst hwv
    simp only [update, Function.update_self]
    exact hn.of_sameFloor (.refl _) (Nat.le_refl _)
  · simp only [update, Function.update_of_ne hwv]
    exact hw

/-- The events that move the floor of a log. -/
def MovesFloor (c : Cluster) : Event → Prop
  | .compact _ _ => True
  | .deliver k _ _ => ∃ p args, c.net[k]? = some p ∧ p.msg.payload = .installSnapshot args
  | _ => False

theorem StepBy.sameFloor {c' : Cluster} {x : Cause} {d : Core} (hs : c.StepBy e c' v x d)
    (he : ¬ c.MovesFloor e) (w : NodeId) : (c.nodes w).log.SameFloor (c'.nodes w).log := by
  by_cases hwv : w = v
  · subst hwv
    have hinstall : ∀ src a, ¬ x.Handles src (.installSnapshot a) := by
      rintro src a ⟨p, hp, -, hpa⟩
      obtain ⟨-, k, io, now, rfl, hk⟩ := hs.packet p hp
      exact he ⟨p, a, hk, hpa⟩
    have hcompact : x.compacts = false := by
      by_contra hx
      obtain ⟨threshold, rfl⟩ := hs.compacts (Bool.eq_true_of_not_eq_false hx)
      exact he trivial
    have hfloor := hs.acts.sameFloor hinstall hcompact
    have hlog : (c'.nodes w).log = d.log := congrArg Core.log hs.result
    rw [hlog]
    exact hfloor
  · rw [hs.other w hwv]
    exact .refl _

section

variable (h : c.WatermarkOk voters learners a)

include h

theorem watermarkOk_step (hsound : c.Sound e) (halign : c.Aligned e) :
    ∃ a', a.Le a' ∧ (c.step e).WatermarkOk voters learners a' ∧
      ∀ v ∈ c.members, (c.nodes v).commitIndex ≤ ((c.step e).nodes v).commitIndex := by
  obtain ⟨a', hle, hok, hcommit⟩ := replicationOk_step h.replication hsound
  refine ⟨a', hle, ⟨hok, fun w hw => ?_⟩, hcommit⟩
  rw [hok.wf.members, ← h.replication.wf.members] at hw
  have hfloor := h.floor w hw
  by_cases hmoves : c.MovesFloor e
  · cases e with
    | compact v threshold =>
      simp only [step]
      split
      · rename_i hv
        have hview := (h.replication.logs v hv).view
        exact floorOk_update ((h.floor v hv).maybeCompact hview halign) hfloor
      · exact hfloor
    | deliver k io now =>
      obtain ⟨p, args, hk, hpa⟩ := hmoves
      have hargs := halign p hk
      rw [hpa] at hargs
      simp only [step, hk]
      split
      · rename_i hv
        have hview := (h.replication.logs _ hv).view
        have hnew : ((c.nodes p.msg.dst).onInstallSnapshot io now args).1.FloorOk :=
          (h.floor _ hv).onInstallSnapshot hview hargs
        refine floorOk_update ?_ hfloor
        simp only [RaftNode.onMessage, hpa]
        exact hnew
      · exact hfloor
    | _ => exact absurd hmoves id
  · rcases step_spec h.replication.wf e with heq | ⟨v, x, d, hs⟩
    · rw [heq]; exact hfloor
    · exact hfloor.of_sameFloor (hs.sameFloor hmoves w) (hcommit w hw)

/-- The commit index of a member never decreases. -/
theorem commitIndex_mono {es : List Event}
    (hrun : Along step (fun c e => c.Sound e ∧ c.Aligned e) c es) (hv : v ∈ c.members) :
    (c.nodes v).commitIndex ≤ ((run step c es).nodes v).commitIndex := by
  have hstep : ∀ (d : Cluster) (e : Event),
      (v ∈ d.members ∧ (c.nodes v).commitIndex ≤ (d.nodes v).commitIndex ∧
        ∃ b, d.WatermarkOk voters learners b) →
      d.Sound e ∧ d.Aligned e →
      v ∈ (d.step e).members ∧ (c.nodes v).commitIndex ≤ ((d.step e).nodes v).commitIndex ∧
        ∃ b, (d.step e).WatermarkOk voters learners b := by
    rintro d e ⟨hmem, hle, b, hb⟩ ⟨hsound, halign⟩
    obtain ⟨b', -, hb', hcommit⟩ := watermarkOk_step hb hsound halign
    refine ⟨?_, Nat.le_trans hle (hcommit v hmem), b', hb'⟩
    rw [hb'.replication.wf.members, ← hb.replication.wf.members]
    exact hmem
  exact (run_invariant hstep ⟨hv, Nat.le_refl _, a, h⟩ hrun).2.1

/-- The watermark of a member is the end of its committed entries. -/
theorem WatermarkOk.highWatermark (hv : v ∈ c.members) :
    (c.nodes v).highWatermark = endOf 0 (batches ((a.log v).take (c.nodes v).commitIndex)) :=
  (h.floor v hv).highWatermark (h.replication.logs v hv).view
    (h.replication.logs v hv).commit.le_length

end

/-- The same cluster with a segment for each batch. -/
def fourSegmented : Cluster := init [1, 2, 3] [4] {} { segmentBytes := 1 }

/-- The first batch is committed and a second one is written, in a segment of its own; then node 1
compacts its log at the commit index. -/
def compactBetween : List Event :=
  electOne ++ writeOne ++
    [.deliver 10 {} 12000, .deliver 13 {} 12000, .propose 1 {} (batchOf 2), .compact 1 1]

end Cluster

end Nexus
