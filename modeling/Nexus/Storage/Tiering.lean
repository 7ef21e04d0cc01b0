import Nexus.Storage.LogRuns
import Nexus.Storage.TieredLog

/-!
# A log and its tier are one log

A log with a tier stands for the log that has all its segments, those of the tier too
(`TieredLog.whole`). It reads like it, and appending to it and moving segments to the tier is
appending to the whole log and nothing: the tier cannot be seen.
-/

namespace Nexus.Raw

open Lib Raw.PartitionLog Directory Raw.Segment List

/-! ## Files by name -/

section Lookup

variable {β : Type} (files : List (Int × β)) (base b : Int)

theorem lookup_cons_eq (v : β) :
    ((base, v) :: files).lookup b = if b = base then some v else files.lookup b := by
  by_cases hb : b = base
  · rw [if_pos hb, lookup_cons, beq_iff_eq.mpr hb]
  · rw [if_neg hb, lookup_cons, beq_eq_false_iff_ne.mpr hb]

theorem lookup_remove :
    (files.filter (·.1 ≠ base)).lookup b = if b = base then none else files.lookup b := by
  induction files with
  | nil => simp
  | cons file files ih =>
    obtain ⟨k, v⟩ := file
    by_cases hk : k = base
    · subst hk
      rw [filter_cons_of_neg (by simp), ih, lookup_cons_eq]
      by_cases hb : b = k <;> simp [hb]
    · rw [filter_cons_of_pos (by simpa using hk), lookup_cons_eq, lookup_cons_eq, ih]
      by_cases hb : b = k
      · subst hb
        simp [hk]
      · simp [hb]

theorem lookup_set (v : β) :
    (files.filter (·.1 ≠ base) ++ [(base, v)]).lookup b =
      if b = base then some v else files.lookup b := by
  rw [lookup_append, lookup_remove, lookup_cons_eq]
  by_cases hb : b = base <;> simp [hb]

end Lookup

namespace Directory

variable (d : Directory) (base b : Int) (log : Bytes) (index : List IndexEntry)

theorem log?_setLog : (d.setLog base log).log? b = if b = base then some log else d.log? b :=
  lookup_set d.logs base b log

theorem log?_setIndex : (d.setIndex base index).log? b = d.log? b := rfl

theorem index?_setIndex :
    (d.setIndex base index).index? b = if b = base then some index else d.index? b :=
  lookup_set d.indexes base b index

theorem nodup_setLog {d : Directory} (h : (d.logs.map Prod.fst).Nodup) (base : Int) (log : Bytes) :
    ((d.setLog base log).logs.map Prod.fst).Nodup := by
  unfold setLog
  rw [map_append, nodup_append]
  refine ⟨h.sublist (filter_sublist.map _), by simp, ?_⟩
  intro b hb c hc hbc
  obtain ⟨file, hfile, rfl⟩ := mem_map.mp hb
  obtain rfl := mem_singleton.mp hc
  simpa [hbc] using (mem_filter.mp hfile).2

end Directory

namespace PartitionLog

theorem headD_mem (older : List Segment) (active : Segment) :
    older.headD active ∈ older ++ [active] := by
  cases older with
  | nil => exact mem_cons_self
  | cons s older => exact mem_cons_self

/-- The segment that the walk finds is the last one before the first that starts above. -/
theorem seek_eq_getLast {offset : Int} {older : List Segment} {active : Segment}
    (h : (older.headD active).baseOffset ≤ offset) :
    some (seek offset older active).2 =
      ((older ++ [active]).takeWhile fun s => s.baseOffset ≤ offset).getLast? := by
  induction older with
  | nil =>
    rw [nil_append, takeWhile_cons_of_pos (by simpa using h)]
    rfl
  | cons s older ih =>
    have hs : s.baseOffset ≤ offset := h
    rw [cons_append, takeWhile_cons_of_pos (by simpa using hs), seek]
    split
    case isTrue hnext =>
      rw [ih hnext]
      have hne : (older ++ [active]).takeWhile (fun s => decide (s.baseOffset ≤ offset)) ≠ [] := by
        cases older with
        | nil => simpa using hnext
        | cons t older => simpa using hnext
      rw [getLast?_cons_of_ne_nil hne]
    case isFalse hnext =>
      have hnil : (older ++ [active]).takeWhile (fun s => decide (s.baseOffset ≤ offset)) = [] := by
        cases older with
        | nil => simpa using hnext
        | cons t older => simpa using hnext
      rw [hnil]
      rfl

end PartitionLog

namespace TieredLog

variable {t t' : TieredLog} {cold : List Segment} {bs : List RecordBatch} {g : Nexus.PartitionLog}
  {cold' : List Segment}

/-- The segments `cold` are those of the tier. -/
structure Cold (t : TieredLog) (cold : List Segment) : Prop where
  bases : t.tieredBases = cold.map Segment.baseOffset
  objects : ∀ s ∈ cold, t.tier.log? s.baseOffset = some s.log ∧
    t.tier.index? s.baseOffset = some s.index.file

/-- The log with the segments of the tier before its own. -/
def whole (t : TieredLog) (cold : List Segment) : PartitionLog :=
  { t.log with older := cold ++ t.log.older }

theorem segments_whole (t : TieredLog) (cold : List Segment) :
    (t.whole cold).segments = cold ++ t.log.segments :=
  append_assoc ..

theorem fields_of_whole (h : t'.whole cold' = t.whole cold) :
    t'.log.logStartOffset = t.log.logStartOffset ∧ t'.log.logEndOffset = t.log.logEndOffset ∧
      t'.log.cfg = t.log.cfg ∧ t'.log.orphans = t.log.orphans ∧ t'.log.active = t.log.active := by
  unfold whole at h
  injection h with hcfg _ hactive hstart hend _ _ horphans
  exact ⟨hstart, hend, hcfg, horphans, hactive⟩

/-- The log and the segments `cold` of the tier hold the batches `bs`. -/
structure Stands (t : TieredLog) (cold : List Segment) (g : Nexus.PartitionLog)
    (bs : List RecordBatch) : Prop extends Cold t cold where
  models : (t.whole cold).Models g
  holds : g.Holds bs
  nonneg : 0 ≤ t.log.logStartOffset
  bound : t.log.logEndOffset < 2 ^ 45

section

variable (h : t.Stands cold g bs)

include h

theorem Stands.cut : (t.whole cold).Cut g bs [] :=
  h.models.toCut h.holds h.nonneg h.bound

theorem Stands.ascending :
    (cold ++ t.log.segments).Pairwise (·.baseOffset < ·.baseOffset) := by
  rw [← segments_whole]
  exact h.cut.ascending

/-- The segments of the tier start below those of the log. -/
theorem Stands.lt_firstBase :
    ∀ s ∈ cold, s.baseOffset < t.log.firstBase := fun s hs =>
  (pairwise_append.mp h.ascending).2.2 s hs _ (headD_mem _ _)

/-- The whole log starts with its first segment. -/
theorem Stands.logStart :
    t.log.logStartOffset = t.tieredBases.headD t.log.firstBase := by
  have hhead := baseOffset_headD h.models.older h.models.active.baseOffset
  rw [h.holds.layout.baseOffset_headD, ← h.models.logStart] at hhead
  refine hhead.symm.trans ?_
  rw [h.bases]
  cases cold with
  | nil => rfl
  | cons s cold => rfl

end

/-! ## Reading -/

theorem readTiered_eq {cursor : Int} {base : Int} {log : Bytes} {index : List IndexEntry}
    {s : Segment} (hbase : (t.tieredBases.takeWhile (· ≤ cursor)).getLast? = some base)
    (hlog : t.tier.log? base = some log) (hindex : t.tier.index? base = some index)
    (hopen : openFiles log index base t.log.cfg.indexIntervalBytes
      t.log.cfg.encryptionKey = .ok s) (k : Nat) : t.readTiered cursor k = s.read cursor k := by
  unfold readTiered
  rw [hbase]
  dsimp only
  rw [hlog, hindex]
  dsimp only
  rw [hopen]

theorem Stands.readAt (h : t.Stands cold g bs) {cursor : Int} {u : Nexus.Segment}
    (hu : g.segmentFor cursor = some u) :
    ∃ s, (∀ k, t.readAt cursor k = s.read cursor k) ∧
      Represents t.log.cfg.encryptionKey s u := by
  obtain ⟨s, hs, hrep⟩ := h.models.segmentFor hu
  unfold segmentFor at hs
  split at hs
  case isFalse => cases hs
  case isTrue hle =>
  rw [seek_eq_getLast hle] at hs
  change ((t.whole cold).segments.takeWhile _).getLast? = _ at hs
  rw [segments_whole] at hs
  have hlocal : t.log.segments.takeWhile (fun s => decide (s.baseOffset ≤ cursor)) ≠ [] ↔
      t.log.firstBase ≤ cursor := by
    unfold segments firstBase
    cases t.log.older with
    | nil => simp
    | cons s older => simp
  unfold TieredLog.readAt
  by_cases hcold : cursor < t.log.firstBase
  · -- no local segment starts at or below the cursor
    have hnil : t.log.segments.takeWhile (fun s => decide (s.baseOffset ≤ cursor)) = [] := by
      by_contra hne
      have := hlocal.mp hne
      omega
    have htake : (cold ++ t.log.segments).takeWhile (fun s => decide (s.baseOffset ≤ cursor)) =
        cold.takeWhile fun s => decide (s.baseOffset ≤ cursor) := by
      rw [List.takeWhile_append, hnil, append_nil]
      split
      · rename_i hlen
        exact (takeWhile_sublist _).eq_of_length hlen |>.symm
      · rfl
    rw [htake] at hs
    have hmem : s ∈ cold := takeWhile_subset _ (mem_of_getLast? hs)
    have hbase : (t.tieredBases.takeWhile (· ≤ cursor)).getLast? = some s.baseOffset := by
      rw [h.bases, takeWhile_map, getLast?_map]
      exact congrArg (Option.map baseOffset) hs
    have hne : t.tieredBases ≠ [] := by
      rw [h.bases]
      exact ne_nil_of_mem (mem_map_of_mem hmem)
    have hopen := h.cut.openFiles (segments_whole t cold ▸ mem_append_left _ hmem)
      t.log.cfg.indexIntervalBytes
    refine ⟨s.reopened t.log.cfg.indexIntervalBytes, fun k => ?_, hrep.reopened _⟩
    rw [if_pos ⟨hne, hcold⟩]
    exact readTiered_eq hbase (h.objects s hmem).1 (h.objects s hmem).2 hopen k
  · -- every segment of the tier starts below the cursor
    have hall : ∀ s ∈ cold, decide (s.baseOffset ≤ cursor) = true := fun s hs => by
      have := h.lt_firstBase s hs
      exact decide_eq_true (by omega)
    rw [takeWhile_append_of_pos hall, getLast?_append_of_ne_nil _
      (hlocal.mpr (by omega))] at hs
    have hfor : t.log.segmentFor cursor = some s := by
      have hfirst : (t.log.older.headD t.log.active).baseOffset ≤ cursor := Int.not_lt.mp hcold
      rw [segmentFor, if_pos hfirst, seek_eq_getLast hfirst]
      exact hs
    refine ⟨s, fun k => ?_, hrep⟩
    rw [if_neg (fun hc => hcold hc.2), readLocal, hfor]

/-- A log and its tier are read like the whole log. -/
theorem Stands.read (h : t.Stands cold g bs) {offset : Int} (ho : t.log.logStartOffset ≤ offset)
    (m : Nat) :
    let taken := takeRun m (bs.dropWhile (below offset))
    t.read offset m = .ok { batches := encodeAll taken, nextOffset := endOf offset taken } := by
  have hstart : t.log.logStartOffset = g.logStartOffset := h.models.logStart
  have hend : t.log.logEndOffset = g.logEndOffset := h.models.logEnd
  rw [hstart] at ho
  have hloop := readLoop_spec (m := m) (t.readLoop m) (r := { nextOffset := offset })
    h.holds (fun _ _ => rfl) (fun _ _ _ => by rw [← hend]; rfl)
    (fun cursor u _ hu => h.readAt hu) ho (Nat.le_refl _)
  unfold TieredLog.read
  rw [if_neg (by omega), hend, hloop]
  simp

/-! ## Offload -/

/-- Of the segments, `moved` are uploaded and `rest` are not, but for the `.log` of the first. -/
structure Uploaded (segs moved rest : List Segment) (tier tier' : Directory) : Prop where
  split : segs = moved ++ rest
  objects : ∀ s ∈ moved, tier'.log? s.baseOffset = some s.log ∧
    tier'.index? s.baseOffset = some s.index.file
  others : ∀ b, b ∉ segs.map Segment.baseOffset →
    tier'.log? b = tier.log? b ∧ tier'.index? b = tier.index? b
  names : ∀ b, tier'.log? b ≠ none →
    tier.log? b ≠ none ∨ b ∈ moved.map Segment.baseOffset ∨ b ∈ rest.head?.map Segment.baseOffset
  nodup : (tier.logs.map Prod.fst).Nodup → (tier'.logs.map Prod.fst).Nodup

theorem Uploaded.cons {s : Segment} {segs moved rest : List Segment} {tier tier' : Directory}
    (h : Uploaded segs moved rest
      ((tier.setLog s.baseOffset s.log).setIndex s.baseOffset s.index.file) tier')
    (hs : s.baseOffset ∉ segs.map baseOffset) :
    Uploaded (s :: segs) (s :: moved) rest tier tier' := by
  refine ⟨by rw [h.split]; rfl, fun u hu => ?_, fun b hb => ?_, fun b hb => ?_, fun hnodup => ?_⟩
  · rcases mem_cons.mp hu with rfl | hu
    · obtain ⟨hlog, hindex⟩ := h.others u.baseOffset hs
      rw [hlog, hindex, log?_setIndex, log?_setLog, index?_setIndex,
        if_pos rfl, if_pos rfl]
      exact ⟨rfl, rfl⟩
    · exact h.objects u hu
  · rw [map_cons, mem_cons, not_or] at hb
    obtain ⟨hlog, hindex⟩ := h.others b hb.2
    rw [hlog, hindex, log?_setIndex, log?_setLog, index?_setIndex,
      if_neg hb.1, if_neg hb.1]
    exact ⟨rfl, rfl⟩
  · rw [map_cons, mem_cons]
    rcases h.names b hb with hold | hmem | hmem
    · rw [log?_setIndex, log?_setLog] at hold
      by_cases heq : b = s.baseOffset
      · exact .inr (.inl (.inl heq))
      · rw [if_neg heq] at hold
        exact .inl hold
    · exact .inr (.inl (.inr hmem))
    · exact .inr (.inr hmem)
  · exact h.nodup (nodup_setLog hnodup s.baseOffset s.log)

/-- The loop moves the oldest segments; without a fault, all of them. -/
theorem offloadLoop_spec (segs : List Segment) (fault : Fault) (bases : List Int)
    (tier : Directory) (n : Nat) (hnodup : (segs.map baseOffset).Nodup) :
    ∃ moved rest tier' r, offloadLoop segs fault bases tier n =
        (rest, bases ++ moved.map baseOffset, tier', r) ∧
      Uploaded segs moved rest tier tier' ∧
      (fault = none → rest = [] ∧ r = .ok (n + moved.length)) := by
  induction segs generalizing fault bases tier n with
  | nil =>
    refine ⟨[], [], tier, .ok n, ?_, ⟨rfl, by simp, fun _ _ => ⟨rfl, rfl⟩, fun _ hb => .inl hb, id⟩,
      fun _ => ⟨rfl, rfl⟩⟩
    rw [offloadLoop, map_nil, append_nil]
  | cons s segs ih =>
    rw [map_cons, nodup_cons] at hnodup
    unfold offloadLoop
    split
    · refine ⟨[], s :: segs, tier, _, by rw [map_nil, append_nil],
        ⟨rfl, by simp, fun _ _ => ⟨rfl, rfl⟩, fun _ hb => .inl hb, id⟩, by simp⟩
    · refine ⟨[], s :: segs, tier.setLog s.baseOffset s.log, _,
        by rw [map_nil, append_nil], ⟨rfl, by simp, fun b hb => ?_, fun b hb => ?_,
          fun hnodup => nodup_setLog hnodup s.baseOffset s.log⟩, by simp⟩
      · rw [map_cons, mem_cons, not_or] at hb
        rw [log?_setLog, if_neg hb.1]
        exact ⟨rfl, rfl⟩
      · rw [log?_setLog] at hb
        by_cases heq : b = s.baseOffset
        · exact .inr (.inr (by simp [heq]))
        · rw [if_neg heq] at hb
          exact .inl hb
    · obtain ⟨moved, rest, tier', r, hloop, hup, hok⟩ :=
        ih (fault.after 2) (bases ++ [s.baseOffset])
          ((tier.setLog s.baseOffset s.log).setIndex s.baseOffset s.index.file) (n + 1) hnodup.2
      refine ⟨s :: moved, rest, tier', r, ?_, hup.cons hnodup.1, fun hnone => ?_⟩
      · rw [hloop, map_cons, append_assoc]
        rfl
      · subst hnone
        obtain ⟨hrest, hr⟩ := hok rfl
        exact ⟨hrest, by rw [hr, length_cons, Nat.add_assoc, Nat.add_comm 1]⟩

/-- An offload moves segments to the tier, and the whole log stays as it is. -/
theorem Stands.offload (h : t.Stands cold g bs) (fault : Fault) :
    ∃ moved rest, Uploaded t.log.older moved rest t.tier (t.offloadSealedToTier fault).2.tier ∧
      (t.offloadSealedToTier fault).2.log.older = rest ∧
      (t.offloadSealedToTier fault).2.hasTier = t.hasTier ∧
      (t.offloadSealedToTier fault).2.Cold (cold ++ moved) ∧
      (t.offloadSealedToTier fault).2.whole (cold ++ moved) = t.whole cold ∧
      (t.hasTier → fault = none →
        rest = [] ∧ (t.offloadSealedToTier fault).1 = .ok moved.length) := by
  unfold offloadSealedToTier
  by_cases htier : t.hasTier = false
  · rw [if_pos htier]
    refine ⟨[], t.log.older, ⟨rfl, by simp, fun _ _ => ⟨rfl, rfl⟩, fun _ hb => .inl hb, id⟩, rfl,
      rfl, ?_, by rw [append_nil], fun htrue => ?_⟩
    · rw [append_nil]
      exact h.toCold
    · rw [htier] at htrue
      cases htrue
  rw [if_neg htier]
  obtain ⟨hcold, hlocal, hlt⟩ := pairwise_append.mp h.ascending
  have hnodup : (t.log.older.map baseOffset).Nodup := by
    refine pairwise_map.mpr ((pairwise_append.mp hlocal).1.imp fun hlt => ?_)
    exact Int.ne_of_lt hlt
  obtain ⟨moved, rest, tier', r, hloop, hup, hok⟩ :=
    offloadLoop_spec t.log.older fault t.tieredBases t.tier 0 hnodup
  have hstart : (t.tieredBases ++ moved.map baseOffset).headD
      (rest.headD t.log.active).baseOffset = t.log.logStartOffset := by
    rw [h.logStart, firstBase, hup.split]
    cases t.tieredBases with
    | cons b bases => rfl
    | nil =>
      cases moved with
      | nil => rfl
      | cons s moved => rfl
  have hcold' : ∀ t' : TieredLog, t'.tieredBases = t.tieredBases ++ moved.map baseOffset →
      t'.tier = tier' → t'.Cold (cold ++ moved) := by
    intro t' hbases ht'
    refine ⟨by rw [hbases, h.bases, map_append], fun s hs => ?_⟩
    rw [ht']
    rcases mem_append.mp hs with hs | hs
    · have hne : s.baseOffset ∉ t.log.older.map baseOffset := fun hmem => by
        obtain ⟨u, hu, heq⟩ := mem_map.mp hmem
        have := hlt s hs u (mem_append_left _ hu)
        omega
      rw [(hup.others _ hne).1, (hup.others _ hne).2]
      exact h.objects s hs
    · exact hup.objects s hs
  rw [hloop]
  cases r with
  | error e =>
    refine ⟨moved, rest, hup, rfl, rfl, hcold' _ rfl rfl, ?_, fun _ hnone => ?_⟩
    · dsimp only [whole]
      rw [hup.split, append_assoc]
    · cases (hok hnone).2
  | ok k =>
    refine ⟨moved, rest, hup, rfl, rfl, hcold' _ rfl rfl, ?_, fun _ hnone => ?_⟩
    · dsimp only [recomputeLogStart, firstBase, whole]
      rw [hstart, hup.split, append_assoc]
    · obtain ⟨hrest, hr⟩ := hok hnone
      rw [Nat.zero_add] at hr
      exact ⟨hrest, hr⟩

theorem Stands.of_whole (h : t.Stands cold g bs) (hcold : t'.Cold cold')
    (hwhole : t'.whole cold' = t.whole cold) : t'.Stands cold' g bs := by
  obtain ⟨hstart, hend, -⟩ := fields_of_whole hwhole
  exact ⟨hcold, hwhole ▸ h.models, h.holds, by rw [hstart]; exact h.nonneg,
    by rw [hend]; exact h.bound⟩

/-! ## Append -/

theorem rollSegment_whole (t : TieredLog) (cold : List Segment) (salt : Salt) :
    (t.whole cold).rollSegment salt =
      (t.log.rollSegment salt).map fun l => { t with log := l }.whole cold := by
  unfold PartitionLog.rollSegment
  change Except.map _ (t.log.createSegment t.log.logEndOffset salt) = _
  cases t.log.createSegment t.log.logEndOffset salt with
  | error e => rfl
  | ok s =>
    dsimp only [Except.map, whole]
    rw [append_assoc]
    rfl

theorem maybeSync_whole (l : PartitionLog) (older : List Segment) (k : Nat) :
    maybeSync { l with older } k = { l.maybeSync k with older } := by
  unfold maybeSync
  dsimp only
  split
  · rfl
  · rfl
  · split <;> rfl

theorem write_whole (t : TieredLog) (cold : List Segment) (b : RecordBatch) (nonce : Nonce) :
    (t.whole cold).write b nonce =
      (t.log.write b nonce).map fun w => ({ t with log := w.1 }.whole cold, w.2) := by
  unfold write
  dsimp only [whole]
  cases t.log.active.append (b.rebase t.log.logEndOffset) nonce with
  | error e => rfl
  | ok w =>
    obtain ⟨ix, p, k, heq, -⟩ := maybeSync_eq { t.log with
      active := w.1
      logEndOffset := w.2 + 1 } (b.rebase t.log.logEndOffset).encodedSize
    dsimp only [Except.map]
    rw [heq]
    exact congrArg (fun l => Except.ok (l, w.2)) ((maybeSync_whole { t.log with
      active := w.1
      logEndOffset := w.2 + 1 } _ _).trans (by rw [heq]))

section

variable (h : t.Stands cold g bs)

include h

/-- A new segment in the log is a new segment in the whole log. -/
theorem Stands.roll (hroll : t.log.mustRoll)
    (hindex : indexOf t.log.orphans t.log.logEndOffset = []) (salt : Salt) :
    ∃ l g', t.log.rollSegment salt = .ok l ∧ Stands { t with log := l } cold g' bs ∧
      l.logStartOffset = t.log.logStartOffset ∧ l.logEndOffset = t.log.logEndOffset ∧
      l.cfg = t.log.cfg ∧ l.orphans ⊆ t.log.orphans := by
  obtain ⟨l₁, g', hl₁, hm, hg, hstart, hend, hcfg, horphans⟩ :=
    h.models.rolled h.holds hindex salt
  have hmust : (t.whole cold).mustRoll := hroll
  rw [PartitionLog.rolled, if_pos hmust, rollSegment_whole] at hl₁
  obtain ⟨l, hl, rfl⟩ := exists_of_map_eq_ok hl₁
  have hstart' : l.logStartOffset = t.log.logStartOffset := hstart
  have hend' : l.logEndOffset = t.log.logEndOffset := hend
  exact ⟨l, g', hl, ⟨⟨h.bases, h.objects⟩, hm, hg, hstart' ▸ h.nonneg, hend' ▸ h.bound⟩, hstart',
    hend', hcfg, horphans⟩

theorem Stands.write {b : RecordBatch} (hb : b.Fits)
    (hc : 1 ≤ b.header.recordCount) (nonce : Nonce) :
    ∃ l, t.log.write b nonce = .ok (l, (b.rebase t.log.logEndOffset).lastOffset) ∧
      l.logStartOffset = t.log.logStartOffset ∧ l.cfg = t.log.cfg ∧ l.orphans = t.log.orphans ∧
      (l.SmallEnd → ∃ g', Stands { t with log := l } cold g'
        (bs ++ [b.rebase t.log.logEndOffset])) := by
  obtain ⟨l₁, hl₁, hstart, hcfg, horphans, hholds⟩ :=
    h.models.write h.holds h.nonneg (Int.lt_trans h.bound (by decide)) hb hc nonce
  rw [write_whole] at hl₁
  obtain ⟨⟨l, last⟩, hl, heq⟩ := exists_of_map_eq_ok hl₁
  obtain ⟨rfl, rfl⟩ := Prod.mk.inj heq
  have hstart' : l.logStartOffset = t.log.logStartOffset := hstart
  refine ⟨l, hl, hstart', hcfg, horphans, fun hsmall => ?_⟩
  obtain ⟨g', hm, hg⟩ := hholds hsmall.1 hsmall.2.1
  exact ⟨g', ⟨h.bases, h.objects⟩, hm, hg, hstart' ▸ h.nonneg, hsmall.2.2⟩

section

variable (hindex : indexOf t.log.orphans t.log.logEndOffset = [])

include hindex

theorem Stands.rolled (salt : Salt) (fault : Fault) :
    ∃ t' cold' g', t.rolled salt fault = .ok t' ∧ t'.Stands cold' g' bs ∧
      t'.log.logStartOffset = t.log.logStartOffset ∧ t'.log.logEndOffset = t.log.logEndOffset ∧
      t'.log.cfg = t.log.cfg ∧ t'.log.orphans ⊆ t.log.orphans ∧ t'.hasTier = t.hasTier := by
  unfold TieredLog.rolled
  by_cases hroll : t.log.mustRoll
  · obtain ⟨l, g', hl, hstands, hstart, hend, hcfg, horphans⟩ := h.roll hroll hindex salt
    obtain ⟨moved, rest, -, -, htier, hcold, hwhole, -⟩ := hstands.offload fault
    rw [if_pos hroll, rollSegment, hl]
    obtain ⟨hstart', hend', hcfg', horphans', -⟩ := fields_of_whole hwhole
    refine ⟨_, cold ++ moved, g', rfl, hstands.of_whole hcold hwhole, hstart'.trans hstart,
      hend'.trans hend, hcfg'.trans hcfg, ?_, htier⟩
    rw [horphans']
    exact horphans
  · rw [if_neg hroll]
    exact ⟨t, cold, g, rfl, h, rfl, rfl, rfl, List.Subset.refl _, rfl⟩

theorem Stands.append {b : RecordBatch} (hb : b.Fits)
    (hc : 1 ≤ b.header.recordCount) (random : Random) (fault : Fault) :
    ∃ t', t.append b random fault = .ok (t', (b.rebase t.log.logEndOffset).lastOffset) ∧
      t'.log.logStartOffset = t.log.logStartOffset ∧ t'.log.cfg = t.log.cfg ∧
      t'.log.orphans ⊆ t.log.orphans ∧ t'.hasTier = t.hasTier ∧
      (t'.log.SmallEnd → ∃ cold' g', t'.Stands cold' g' (bs ++ [b.rebase t.log.logEndOffset])) := by
  obtain ⟨t₁, cold₁, g₁, ht₁, hstands, hstart, hend, hcfg, horphans, htier⟩ :=
    h.rolled hindex random.salt fault
  obtain ⟨l, hl, hstart', hcfg', horphans', hholds⟩ := hstands.write hb hc random.nonce
  rw [hend] at hl hholds
  unfold TieredLog.append
  rw [ht₁]
  dsimp only
  rw [hl]
  refine ⟨_, rfl, hstart'.trans hstart, hcfg'.trans hcfg, ?_, htier, fun hsmall => ?_⟩
  · dsimp only
    rw [horphans']
    exact horphans
  · obtain ⟨g', hg'⟩ := hholds hsmall
    exact ⟨cold₁, g', hg'⟩

end

end

/-! ## One process, with a tier that does not fail -/

theorem openTiered_eq (cfg : LogConfig) (hasTier : Bool) (dir : Directory) (salt : Salt) :
    openTiered cfg hasTier dir {} salt =
      (openDirectory cfg dir salt).map fun l => { log := l, hasTier } := by
  have hbases : ∀ segs, listColdPrefix hasTier {} segs = [] := fun segs => by
    unfold listColdPrefix
    split <;> rfl
  unfold openTiered
  cases openDirectory cfg dir salt with
  | error e => rfl
  | ok l =>
    dsimp only [Except.map]
    rw [hbases]

/-- A log of an empty tier. -/
theorem exists_stands {l : PartitionLog} (h : l.Holds bs) (hasTier : Bool) :
    ∃ g, Stands { log := l, hasTier } [] g bs := by
  obtain ⟨g, hm, hg⟩ := h.models
  exact ⟨g, ⟨rfl, by simp⟩, hm, hg, h.nonneg, h.bound⟩

/-- The logs that appends and offloads reach, from an empty directory or from one that was written
without a tier. -/
inductive Reached : TieredLog → Prop where
  | created {cfg : LogConfig} {salt : Salt} {t : TieredLog} :
      openTiered cfg true {} {} salt = .ok t → Reached t
  | opened {steps : List Step} {l : PartitionLog} {cfg : LogConfig} {salt : Salt} {t : TieredLog} :
      PartitionLog.Run steps l → cfg.encryptionKey = l.cfg.encryptionKey →
      openTiered cfg true l.files {} salt = .ok t → Reached t
  | append {t t' : TieredLog} {b : RecordBatch} {random : Random} {last : Int} :
      Reached t → b.Fits → 1 ≤ b.header.recordCount → t.append b random none = .ok (t', last) →
      t'.log.Small → Reached t'
  | offload {t : TieredLog} : Reached t → Reached (t.offloadSealedToTier none).2

theorem Reached.stands (h : Reached t) :
    (∃ cold g bs, t.Stands cold g bs) ∧ t.log.orphans = [] ∧ t.hasTier := by
  induction h with
  | @created cfg salt t hopen =>
    obtain ⟨l, hl, hholds, -⟩ := holds_openDirectory_nil cfg salt
    rw [openTiered_eq, hl] at hopen
    cases hopen
    obtain ⟨g, hg⟩ := exists_stands hholds true
    exact ⟨⟨_, _, _, hg⟩, hholds.orphans, rfl⟩
  | @opened steps l cfg salt t hrun hkey hopen =>
    obtain ⟨bs, hholds⟩ := hrun.holds
    obtain ⟨l', hl', hholds', -⟩ := hholds.reopen hkey salt
    rw [openTiered_eq, hl'] at hopen
    cases hopen
    obtain ⟨g, hg⟩ := exists_stands hholds' true
    exact ⟨⟨_, _, _, hg⟩, hholds'.orphans, rfl⟩
  | @append t t' b random last _ hfits hcount happend hsmall ih =>
    obtain ⟨⟨cold, g, bs, hstands⟩, horphans, htier⟩ := ih
    have hindex : indexOf t.log.orphans t.log.logEndOffset = [] := by
      rw [horphans]
      rfl
    obtain ⟨t₁, ht₁, -, -, horphans', htier', hholds⟩ :=
      hstands.append hindex hfits hcount random none
    obtain ⟨rfl, -⟩ := Prod.mk.inj (Except.ok.inj (happend.symm.trans ht₁))
    obtain ⟨cold', g', hg'⟩ := hholds hsmall.smallEnd
    exact ⟨⟨_, _, _, hg'⟩, subset_nil.mp (horphans ▸ horphans'), htier'.trans htier⟩
  | @offload t _ ih =>
    obtain ⟨⟨cold, g, bs, hstands⟩, horphans, htier⟩ := ih
    obtain ⟨moved, rest, -, -, htier', hcold, hwhole, -⟩ := hstands.offload none
    obtain ⟨-, -, -, horphans', -⟩ := fields_of_whole hwhole
    exact ⟨⟨_, _, _, hstands.of_whole hcold hwhole⟩, horphans'.trans horphans, htier'.trans htier⟩

/-- The logs on which `offload_sealed_to_tier` is called: by itself, or by `roll_segment`, when the
new segment is there. -/
inductive Offloads : TieredLog → Prop where
  | called {t : TieredLog} : Reached t → Offloads t
  | rolled {t : TieredLog} {salt : Salt} {l : PartitionLog} : Reached t → t.log.mustRoll →
      t.log.rollSegment salt = .ok l → Offloads { t with log := l }

theorem Offloads.stands (h : Offloads t) : (∃ cold g bs, t.Stands cold g bs) ∧ t.hasTier := by
  cases h with
  | called h => exact ⟨h.stands.1, h.stands.2.2⟩
  | @rolled t salt l h hroll hl =>
    obtain ⟨⟨cold, g, bs, hstands⟩, horphans, htier⟩ := h.stands
    have hindex : indexOf t.log.orphans t.log.logEndOffset = [] := by
      rw [horphans]
      rfl
    obtain ⟨l', g', hl', hstands', -⟩ := hstands.roll hroll hindex salt
    obtain rfl := Except.ok.inj (hl.symm.trans hl')
    exact ⟨⟨_, _, _, hstands'⟩, htier⟩

/-- An offload moves every closed segment to the tier, and cannot be seen. -/
theorem read_offload (h : Offloads t) :
    let t' := (t.offloadSealedToTier none).2
    (t.offloadSealedToTier none).1 = .ok t.log.older.length ∧ t'.log.older = [] ∧
      t'.log.logStartOffset = t.log.logStartOffset ∧ t'.log.logEndOffset = t.log.logEndOffset ∧
      ∀ (o : Int) (m : Nat), t.log.logStartOffset ≤ o → t'.read o m = t.read o m := by
  obtain ⟨⟨cold, g, bs, hstands⟩, htier⟩ := h.stands
  obtain ⟨moved, rest, hup, holder, -, hcold, hwhole, hok⟩ := hstands.offload none
  obtain ⟨rfl, hr⟩ := hok htier rfl
  have hmoved : t.log.older = moved := by rw [hup.split, List.append_nil]
  obtain ⟨hstart, hend, -⟩ := fields_of_whole hwhole
  refine ⟨by rw [hr, hmoved], holder, hstart, hend, fun o m ho => ?_⟩
  rw [(hstands.of_whole hcold hwhole).read (by rw [hstart]; exact ho) m, hstands.read ho m]

/-- The log after more appends, if they succeed. -/
def appendAll (random : Random) : List RecordBatch → TieredLog → Option TieredLog
  | [], t => some t
  | b :: bs, t =>
    match t.append b random none with
    | .error _ => none
    | .ok (t', _) => if t'.log.Small then appendAll random bs t' else none

theorem Reached.appendAll {random : Random} (h : Reached t)
    (hbs : ∀ b ∈ bs, b.Fits ∧ 1 ≤ b.header.recordCount) (ht' : t.appendAll random bs = some t') :
    Reached t' := by
  induction bs generalizing t with
  | nil =>
    cases ht'
    exact h
  | cons b bs ih =>
    rw [forall_mem_cons] at hbs
    unfold TieredLog.appendAll at ht'
    split at ht'
    · cases ht'
    · rename_i t₁ last happend
      split at ht'
      · rename_i hsmall
        exact ih (h.append hbs.1.1 hbs.1.2 happend hsmall) hbs.2 ht'
      · cases ht'

/-- The first of two batches is in the tier, and the second one is about to be moved. -/
theorem read_offload_secondSegment :
    ∃ t, Offloads t ∧ t.tieredBases = [0] ∧ t.log.older.length = 1 ∧
      ∀ (o : Int) (m : Nat), 0 ≤ o → (t.offloadSealedToTier none).2.read o m = t.read o m := by
  have hopen : ∃ t, openTiered narrow true {} {} noRandom.salt = .ok t ∧
      ((t.appendAll noRandom [twoRecords, twoRecords]).bind fun t =>
        (t.log.rollSegment noRandom.salt).toOption.map fun l =>
          (t.log.mustRoll, t.tieredBases, l.older.length, l.logStartOffset)) =
        some (true, [0], 1, 0) := by
    refine ⟨_, rfl, ?_⟩
    decide +kernel
  obtain ⟨t₀, ht₀, hrun⟩ := hopen
  obtain ⟨t, ht, hrun⟩ := Option.bind_eq_some_iff.mp hrun
  obtain ⟨l, hl, hfields⟩ := Option.map_eq_some_iff.mp hrun
  simp only [Prod.mk.injEq] at hfields
  obtain ⟨hroll, hbases, holder, hstart⟩ := hfields
  have hreached : Reached t := (Reached.created ht₀).appendAll (by decide) ht
  have hoffloads : Offloads { t with log := l } := by
    refine @Offloads.rolled t noRandom.salt l hreached hroll ?_
    cases hr : t.log.rollSegment noRandom.salt with
    | error e =>
      rw [hr] at hl
      cases hl
    | ok l' =>
      rw [hr] at hl
      cases hl
      rfl
  refine ⟨_, hoffloads, hbases, holder, fun o m ho => ?_⟩
  exact (read_offload hoffloads).2.2.2.2 o m (by rw [hstart]; exact ho)

end TieredLog

end Nexus.Raw
