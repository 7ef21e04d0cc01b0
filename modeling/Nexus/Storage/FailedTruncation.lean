import Nexus.Storage.LogRuns

/-!
# Truncations that fail

`PartitionLog::truncate_to` removes the segments after the one that holds the offset before that
segment looks for a batch that starts there. When there is none the call fails, and the log is left
without the segments that it removed, though it still ends where it did (`Loses`).

The log is taken here with the segments that only its tier has, `cold`: they are read like those of
the log, and no truncation reaches them.
-/

namespace Nexus

open PartitionLog List

namespace PartitionLog

variable {l : PartitionLog} {cold : List Segment} {bs : List RecordBatch} {offset : Int}
  {b : RecordBatch} {r : FetchResult} {m : Nat}

/-- `first_local_base`. -/
def firstLocalBase (l : PartitionLog) : Int := (l.older.headD l.active).baseOffset

/-- The log with the segments of the tier before its own. -/
def behind (l : PartitionLog) (cold : List Segment) : PartitionLog :=
  { l with older := cold ++ l.older }

/-- The end of `truncate_to`: the segments after the one that holds the offset are gone before
that one is truncated, whether or not a batch starts there. -/
def cutAt (l : PartitionLog) (offset : Int) : Expected Unit × PartitionLog :=
  let found := seek offset l.older l.active
  match found.2.truncateTo offset with
  | .error e => (.error e, { l with older := found.1, active := found.2 })
  | .ok target =>
    (.ok (), { l with
      older := found.1
      active := target
      logEndOffset := offset
      recoveryPoint := min l.recoveryPoint offset
      bytesSinceSync := 0 })

/-- `PartitionLog::truncate_to`: the answer, and the log that it leaves. -/
def truncateToWith (l : PartitionLog) (cold : List Segment) (offset : Int) :
    Expected Unit × PartitionLog :=
  if offset = l.logEndOffset then (.ok (), l)
  else if offset > l.logEndOffset then
    (makeError .outOfRange "truncate_to por encima de log_end_offset", l)
  else if offset < l.logStartOffset then
    (makeError .outOfRange "truncate_to por debajo de log_start_offset", l)
  else if cold ≠ [] ∧ offset < l.firstLocalBase then
    (makeError .unsupported "truncate_to dentro de datos ya descargados al tier", l)
  else l.cutAt offset

theorem truncateToWith_of_inside (hlo : l.logStartOffset ≤ offset) (hhi : offset < l.logEndOffset)
    (ho : ¬ (cold ≠ [] ∧ offset < l.firstLocalBase)) :
    l.truncateToWith cold offset = l.cutAt offset := by
  unfold truncateToWith
  rw [if_neg (by omega), if_neg (by omega), if_neg (by omega), if_neg ho]

/-- Without a tier, a truncation that succeeds is that of `truncateTo`. -/
theorem truncateTo_eq_truncateToWith (l : PartitionLog) (offset : Int) :
    l.truncateTo offset =
      (l.truncateToWith [] offset).1.map fun _ => (l.truncateToWith [] offset).2 := by
  unfold truncateTo truncateToWith
  split
  · rfl
  split
  · rfl
  split
  · rfl
  rw [if_neg (fun h => h.1 rfl)]
  unfold cutAt
  dsimp only
  cases (seek offset l.older l.active).2.truncateTo offset <;> rfl

theorem truncateTo_eq_ok_iff {l' : PartitionLog} :
    l.truncateTo offset = .ok l' ↔ l.truncateToWith [] offset = (.ok (), l') := by
  rw [truncateTo_eq_truncateToWith]
  rcases l.truncateToWith [] offset with ⟨_ | _, l₁⟩
  · exact ⟨nofun, nofun⟩
  · exact ⟨fun h => by cases h; rfl, fun h => by cases h; rfl⟩

/-! ## Segments of the tier -/

theorem seek_append {older : List Segment} {active : Segment}
    (h : ∀ s ∈ cold, s.baseOffset ≤ offset) (ho : (older.headD active).baseOffset ≤ offset) :
    seek offset (cold ++ older) active =
      (cold ++ (seek offset older active).1, (seek offset older active).2) := by
  induction cold with
  | nil => rfl
  | cons s rest ih =>
    have hnext : ((rest ++ older).headD active).baseOffset ≤ offset := by
      cases rest with
      | nil => exact ho
      | cons r rest => exact h r (by simp)
    rw [cons_append, seek, if_pos hnext, ih fun t ht => h t (.tail _ ht)]
    rfl

theorem Holds.base_le_logEnd (h : l.Holds bs) {s : Segment} (hs : s ∈ l.segments) :
    s.baseOffset ≤ l.logEndOffset := by
  obtain ⟨before, later, hsegs⟩ := append_of_mem hs
  have hlayout := h.layout
  have hflat := h.blocks
  rw [hsegs] at hlayout hflat
  rw [layout_append, layout_cons] at hlayout
  rw [h.logEnd, ← hflat, flat_append, endOf_append, hlayout.2.1, flat_cons, endOf_append]
  exact Int.le_trans hlayout.2.2.1.le_endOf hlayout.2.2.2.chain.le_endOf

theorem Holds.cold_le (h : (l.behind cold).Holds bs) :
    ∀ s ∈ cold, s.baseOffset ≤ l.firstLocalBase := by
  intro s hs
  have hasc : Ascending (cold ++ l.segments) := by
    have := h.ascending
    unfold segments behind at this
    rwa [append_assoc] at this
  have hmem : l.older.headD l.active ∈ l.segments := by
    unfold segments
    cases l.older with
    | nil => exact mem_cons_self
    | cons s older => exact mem_cons_self
  exact Int.le_of_lt ((pairwise_append.mp hasc).2.2 s hs _ hmem)

theorem cutAt_behind (h : ∀ s ∈ cold, s.baseOffset ≤ offset) (ho : l.firstLocalBase ≤ offset) :
    (l.behind cold).cutAt offset = ((l.cutAt offset).1, (l.cutAt offset).2.behind cold) := by
  unfold cutAt
  dsimp only [behind]
  rw [seek_append h ho]
  dsimp only
  cases (seek offset l.older l.active).2.truncateTo offset <;> rfl

/-- A truncation outside the tier does to the log what it does to the log with the segments of the
tier. -/
theorem Holds.truncateToWith_behind (h : (l.behind cold).Holds bs)
    (ho : ¬ (cold ≠ [] ∧ offset < l.firstLocalBase)) :
    (l.behind cold).truncateToWith [] offset =
      ((l.truncateToWith cold offset).1, (l.truncateToWith cold offset).2.behind cold) := by
  rcases Decidable.em (cold = []) with rfl | hne
  · rfl
  have hle : l.firstLocalBase ≤ offset := Int.not_lt.mp fun hlt => ho ⟨hne, hlt⟩
  have hcut := cutAt_behind (fun s hs => Int.le_trans (h.cold_le s hs) hle) hle
  by_cases heq : offset = l.logEndOffset
  · simp only [truncateToWith, behind, heq, if_true]
  by_cases hhi : offset > l.logEndOffset
  · simp only [truncateToWith, behind, heq, hhi, if_true, if_false]
  by_cases hlo : offset < l.logStartOffset
  · simp only [truncateToWith, behind, heq, hhi, hlo, if_true, if_false]
  · have hlt : offset < l.logEndOffset := by omega
    rw [truncateToWith_of_inside (Int.not_lt.mp hlo) hlt ho,
      truncateToWith_of_inside (l := l.behind cold) (Int.not_lt.mp hlo) hlt fun hc => hc.1 rfl,
      hcut]

/-! ## Reads -/

/-- Some read gives the batch. -/
def Readable (l : PartitionLog) (b : RecordBatch) : Prop :=
  ∃ from_ maxBytes r, l.read from_ maxBytes = .ok r ∧ b ∈ r.batches

theorem mem_readFrom {blocks : List RecordBatch}
    (h : b ∈ (Segment.readFrom offset m blocks r).batches) : b ∈ r.batches ∨ b ∈ blocks := by
  induction blocks generalizing r with
  | nil => exact .inl h
  | cons c rest ih =>
    unfold Segment.readFrom at h
    split at h
    · exact (ih h).imp_right (.tail _)
    split at h
    · exact .inl h
    · rcases ih h with hr | hr
      · rcases mem_append.mp hr with hr | hr
        · exact .inl hr
        · exact .inr (mem_singleton.mp hr ▸ .head _)
      · exact .inr (.tail _ hr)

theorem seek_snd_mem (offset : Int) (older : List Segment) (active : Segment) :
    (seek offset older active).2 ∈ older ++ [active] := by
  induction older with
  | nil => exact .head _
  | cons s rest ih =>
    unfold seek
    split
    · exact .tail _ ih
    · exact .head _

theorem mem_readLocal (h : b ∈ (l.readLocal offset m).batches) : b ∈ flat l.segments := by
  unfold readLocal segmentFor at h
  split at h
  · cases h
  rename_i s hs
  split at hs
  · cases hs
    rcases mem_readFrom h with hr | hr
    · cases hr
    · exact mem_flatMap.mpr ⟨_, seek_snd_mem offset l.older l.active, hr⟩
  · cases hs

theorem mem_readLoop {fuel : Nat}
    (h : b ∈ (l.readLoop m fuel offset r).batches) : b ∈ r.batches ∨ b ∈ flat l.segments := by
  induction fuel generalizing offset r with
  | zero => exact .inl h
  | succ fuel ih =>
    unfold readLoop at h
    split at h
    · dsimp only at h
      split at h
      · exact .inl h
      · rcases ih h with hr | hr
        · exact (mem_append.mp hr).imp_right mem_readLocal
        · exact .inr hr
    · exact .inl h

/-- A log reads nothing but the blocks of its segments. -/
theorem Readable.mem (h : l.Readable b) : b ∈ flat l.segments := by
  obtain ⟨from_, m, r, hr, hb⟩ := h
  unfold read at hr
  split at hr
  · cases hr
  · cases hr
    exact (mem_readLoop hb).resolve_left not_mem_nil

theorem Holds.readable_iff (h : l.Holds bs) (b : RecordBatch) : l.Readable b ↔ b ∈ bs := by
  refine ⟨fun hr => h.blocks ▸ hr.mem, fun hb => ?_⟩
  obtain ⟨k, hk, hget⟩ := mem_iff_getElem.mp hb
  have hread := h.read_one (List.getElem?_eq_some_iff.mpr ⟨hk, hget⟩)
  exact ⟨_, _, _, hread, mem_singleton.mpr rfl⟩

theorem seek_setState (offset : Int) (older : List Segment) (active : Segment) (st : SegmentState) :
    (seek offset older { active with state := st }).2.blocks =
      (seek offset older active).2.blocks := by
  induction older with
  | nil => rfl
  | cons s rest ih =>
    have hnext : (rest.headD { active with state := st }).baseOffset =
        (rest.headD active).baseOffset := by cases rest <;> rfl
    unfold seek
    rw [hnext]
    split
    · exact ih
    · rfl

/-- A read does not look at the state of a segment. -/
theorem readLocal_setState (l : PartitionLog) (st : SegmentState) (offset : Int) (m : Nat) :
    ({ l with active := { l.active with state := st } } : PartitionLog).readLocal offset m =
      l.readLocal offset m := by
  have hhead : (l.older.headD { l.active with state := st }).baseOffset =
      (l.older.headD l.active).baseOffset := by cases l.older <;> rfl
  unfold readLocal segmentFor
  dsimp only
  rw [hhead]
  split <;> rename_i hs
  · split at hs
    · cases hs
    · rw [if_neg ‹_›]
  · split at hs
    · rw [if_pos ‹_›]
      cases hs
      unfold Segment.read
      rw [seek_setState]
    · cases hs

theorem readLoop_setState (l : PartitionLog) (st : SegmentState) (m fuel : Nat) (cursor : Int)
    (r : FetchResult) :
    ({ l with active := { l.active with state := st } } : PartitionLog).readLoop m fuel cursor r =
      l.readLoop m fuel cursor r := by
  induction fuel generalizing cursor r with
  | zero => rfl
  | succ fuel ih =>
    unfold readLoop
    dsimp only
    rw [readLocal_setState]
    simp only [ih]

theorem readable_setState {st : SegmentState} :
    ({ l with active := { l.active with state := st } } : PartitionLog).Readable b ↔
      l.Readable b := by
  unfold Readable read
  simp only [readLoop_setState]

/-! ## Success -/

/-- A batch starts at the offset, or the log ends there. -/
def IsBoundary (l : PartitionLog) (bs : List RecordBatch) (offset : Int) : Prop :=
  offset = l.logEndOffset ∨ ∃ b ∈ bs, b.baseOffset = offset

theorem Holds.isBoundary_iff (h : l.Holds bs) :
    l.IsBoundary bs offset ↔ ∃ k ≤ bs.length, offset = endOf l.logStartOffset (bs.take k) ∧
      bs.takeWhile (below offset) = bs.take k := by
  constructor
  · intro hb
    refine Raw.BatchList.exists_take_of_isBoundary
      (c := { start := l.logStartOffset, batches := bs }) h.chain ?_
    exact hb.imp_left fun heq => heq.trans h.logEnd
  · rintro ⟨k, hk, rfl, -⟩
    rcases Nat.lt_or_eq_of_le hk with hlt | rfl
    · exact .inr ⟨bs[k], getElem_mem hlt,
        h.chain.baseOffset_getElem (List.getElem?_eq_some_iff.mpr ⟨hlt, rfl⟩)⟩
    · rw [take_length]
      exact .inl h.logEnd.symm

theorem Holds.isBoundary_of_ok (h : l.Holds bs) (hok : (l.truncateToWith [] offset).1 = .ok ()) :
    l.IsBoundary bs offset := by
  by_cases heq : offset = l.logEndOffset
  · exact .inl heq
  by_cases hhi : offset > l.logEndOffset
  · simp only [truncateToWith, heq, hhi, if_true, if_false] at hok
    cases hok
  by_cases hlo : offset < l.logStartOffset
  · simp only [truncateToWith, heq, hhi, hlo, if_true, if_false] at hok
    cases hok
  have hle : l.logStartOffset ≤ offset := Int.not_lt.mp hlo
  rw [truncateToWith_of_inside hle (by omega) fun hc => hc.1 rfl, cutAt] at hok
  cases hpos : (seek offset l.older l.active).2.positionOf offset with
  | error e =>
    simp only [Segment.truncateTo, hpos, Except.map] at hok
    cases hok
  | ok j =>
    obtain ⟨k, hk, hoff⟩ := h.eq_of_positionOf hle hpos
    rcases Nat.lt_or_eq_of_le hk with hlt | rfl
    · exact .inr ⟨bs[k], getElem_mem hlt, by
        rw [hoff]
        exact h.chain.baseOffset_getElem (List.getElem?_eq_some_iff.mpr ⟨hlt, rfl⟩)⟩
    · rw [take_length] at hoff
      exact .inl (hoff.trans h.logEnd.symm)

/-- A truncation where a batch starts cuts the log there. -/
theorem Holds.truncateToWith_of_isBoundary (h : l.Holds bs) (hb : l.IsBoundary bs offset) :
    ∃ l', l.truncateToWith [] offset = (.ok (), l') ∧ l'.Holds (bs.takeWhile (below offset)) ∧
      l'.logStartOffset = l.logStartOffset ∧ l'.logEndOffset = offset := by
  obtain ⟨k, hk, rfl, htake⟩ := h.isBoundary_iff.mp hb
  obtain ⟨l', hl', hholds, hstart⟩ := h.truncateTo hk
  rw [htake]
  refine ⟨l', truncateTo_eq_ok_iff.mp hl', hholds, hstart, ?_⟩
  rw [hholds.logEnd, hstart]

/-! ## Failure -/

/-- A truncation that fails at a segment has removed those after it, and nothing else. -/
theorem Holds.cutAt_error (h : l.Holds bs) (hlo : l.logStartOffset ≤ offset) {e : Error}
    (he : (l.cutAt offset).1 = .error e) :
    ∃ before target later,
      l.cutAt offset = (.error e, { l with older := before, active := target }) ∧
      l.segments = before ++ target :: later ∧ (∀ s ∈ before, s ∈ l.older) ∧
      target.baseOffset ≤ offset ∧ ∀ s ∈ later, offset < s.baseOffset := by
  obtain ⟨later, hsegs, hbase, hlater⟩ := seek_spec l.older l.active h.layout hlo
  have hsub := seek_subset offset l.older l.active
  refine ⟨_, _, later, ?_, hsegs, hsub, hbase, fun s hs => ?_⟩
  · unfold cutAt at he ⊢
    dsimp only at he ⊢
    cases htrunc : (seek offset l.older l.active).2.truncateTo offset with
    | error e' =>
      rw [htrunc] at he
      cases he
      rfl
    | ok target =>
      rw [htrunc] at he
      cases he
  · cases later with
    | nil => cases hs
    | cons r later =>
      have hr := hlater r rfl
      have hasc := h.ascending
      rw [segments, hsegs] at hasc
      have hrest := (pairwise_append.mp hasc).2.1
      have hpair := pairwise_cons.mp (pairwise_cons.mp hrest).2
      rcases mem_cons.mp hs with rfl | hs
      · exact hr
      · exact Int.lt_trans hr (hpair.1 s hs)

/-- A log without its last segments still has every batch if and only if those were empty. -/
theorem Holds.readable_before_iff (h : l.Holds bs) {before later : List Segment} {target : Segment}
    (hsegs : l.segments = before ++ target :: later) (hbefore : ∀ s ∈ before, s ∈ l.older) :
    (∀ b, l.Readable b → ({ l with older := before, active := target } : PartitionLog).Readable b) ↔
      ∀ s ∈ later, s.blocks = [] := by
  have hlayout := h.layout
  have hflat := h.blocks
  rw [hsegs, append_cons] at hlayout hflat
  rw [layout_append] at hlayout
  rw [flat_append] at hflat
  constructor
  · intro hkeeps s hs
    by_contra hne
    obtain ⟨b, hb⟩ := exists_mem_of_ne_nil _ hne
    have hlater : b ∈ flat later := mem_flatMap.mpr ⟨s, hs, hb⟩
    have hmem : b ∈ bs := hflat ▸ mem_append_right _ hlater
    have hkept := (hkeeps b ((h.readable_iff b).mpr hmem)).mem
    have hlt := hlayout.1.chain.baseOffset_lt b hkept
    have hge := hlayout.2.chain.le_baseOffset b hlater
    omega
  · intro hempty
    have hnil : flat later = [] := flatMap_eq_nil_iff.mpr hempty
    rw [hnil, append_nil, flat_append, flat_cons, flat_nil, append_nil] at hflat
    have hholds := (h.keep hsegs hbefore target.blocks.length).1
    rw [take_length, hflat, ← h.logEnd] at hholds
    intro b hb
    exact readable_setState.mp ((hholds.readable_iff b).mpr ((h.readable_iff b).mp hb))

/-! ## Truncations -/

/-- What a truncation is to do to a log with the batches `bs`: it succeeds where a batch starts and
then leaves the batches below; when it fails, every batch can still be read. -/
structure TruncatesCleanly (l : PartitionLog) (cold : List Segment) (bs : List RecordBatch)
    (offset : Int) : Prop where
  succeeds : (l.truncateToWith cold offset).1 = .ok () ↔
    l.logStartOffset ≤ offset ∧ offset ≤ l.logEndOffset ∧ l.IsBoundary bs offset ∧
      ¬ (cold ≠ [] ∧ offset < l.firstLocalBase)
  restricts : (l.truncateToWith cold offset).1 = .ok () →
    ((l.truncateToWith cold offset).2.behind cold).Holds (bs.takeWhile (below offset)) ∧
      (l.truncateToWith cold offset).2.logStartOffset = l.logStartOffset ∧
      (l.truncateToWith cold offset).2.logEndOffset = offset
  keeps : ∀ e, (l.truncateToWith cold offset).1 = .error e →
    (l.truncateToWith cold offset).2.logEndOffset = l.logEndOffset ∧
      ∀ b, (l.behind cold).Readable b →
        ((l.truncateToWith cold offset).2.behind cold).Readable b

/-- The offset is inside a batch, and a later segment of the log has a batch. -/
def Loses (l : PartitionLog) (bs : List RecordBatch) (offset : Int) : Prop :=
  l.firstLocalBase ≤ offset ∧ (∀ b ∈ bs, b.baseOffset ≠ offset) ∧
    ∃ s ∈ l.segments, offset < s.baseOffset ∧ s.blocks ≠ []

theorem segments_behind (l : PartitionLog) (cold : List Segment) :
    (l.behind cold).segments = cold ++ l.segments := append_assoc ..

theorem headD_mem_segments (l : PartitionLog) : l.older.headD l.active ∈ l.segments := by
  unfold segments
  cases l.older with
  | nil => exact .head _
  | cons s older => exact .head _

section

variable (h : (l.behind cold).Holds bs)

include h

/-- The first local segment starts inside the log. -/
theorem Holds.firstLocalBase_mem :
    l.logStartOffset ≤ l.firstLocalBase ∧ l.firstLocalBase ≤ l.logEndOffset ∧
      (cold = [] → l.firstLocalBase = l.logStartOffset) := by
  have hmem : l.older.headD l.active ∈ (l.behind cold).segments := by
    rw [segments_behind]
    exact mem_append_right _ l.headD_mem_segments
  refine ⟨h.layout.le_baseOffset _ hmem, h.base_le_logEnd hmem, ?_⟩
  rintro rfl
  exact h.layout.baseOffset_headD

/-- A failed truncation inside the local segments keeps every batch if and only if the segments that
it removed had none. -/
theorem Holds.keeps_iff (hlo : l.firstLocalBase ≤ offset)
    (hhi : offset < l.logEndOffset) {e : Error} (he : (l.truncateToWith cold offset).1 = .error e) :
    (l.truncateToWith cold offset).2.logEndOffset = l.logEndOffset ∧
      ((∀ b, (l.behind cold).Readable b →
        ((l.truncateToWith cold offset).2.behind cold).Readable b) ↔
      ¬ ∃ s ∈ l.segments, offset < s.baseOffset ∧ s.blocks ≠ []) := by
  have hstart := h.firstLocalBase_mem.1
  have hout : ¬ (cold ≠ [] ∧ offset < l.firstLocalBase) := by omega
  have hcut := h.truncateToWith_behind hout
  rw [truncateToWith_of_inside (l := l.behind cold) (Int.le_trans hstart hlo) hhi
    fun hc => hc.1 rfl] at hcut
  obtain ⟨before, target, later, heq, hsegs, hbefore, hbase, hlater⟩ :=
    h.cutAt_error (Int.le_trans hstart hlo) ((congrArg Prod.fst hcut).trans he)
  have hleft : (l.truncateToWith cold offset).2.behind cold =
      { l.behind cold with older := before, active := target } :=
    (congrArg Prod.snd hcut).symm.trans (congrArg Prod.snd heq)
  have hend : ((l.truncateToWith cold offset).2.behind cold).logEndOffset = l.logEndOffset := by
    have := congrArg (fun g : PartitionLog => g.logEndOffset) hleft
    exact this
  refine ⟨hend, ?_⟩
  rw [hleft, h.readable_before_iff hsegs hbefore]
  -- the removed segments are those of the log that start above the offset
  have hiff : ∀ s, s ∈ later ↔ s ∈ l.segments ∧ offset < s.baseOffset := by
    intro s
    have hmem : s ∈ cold ++ l.segments ↔ s ∈ before ++ target :: later := by
      rw [← segments_behind, hsegs]
    have hasc := h.ascending
    rw [hsegs] at hasc
    have hle : ∀ t ∈ before, t.baseOffset ≤ offset := fun t ht =>
      Int.le_trans (Int.le_of_lt ((pairwise_append.mp hasc).2.2 t ht target (.head _))) hbase
    constructor
    · intro hs
      have hlt := hlater s hs
      rcases mem_append.mp (hmem.mpr (by simp [hs])) with hc | hc
      · have := h.cold_le s hc
        omega
      · exact ⟨hc, hlt⟩
    · rintro ⟨hs, hlt⟩
      rcases mem_append.mp (hmem.mp (mem_append_right _ hs)) with hb | hb
      · have := hle s hb
        omega
      · rcases mem_cons.mp hb with rfl | hb
        · omega
        · exact hb
  simp only [hiff, not_exists, not_and, not_not, and_imp]

/-- No truncation reaches into the tier. -/
theorem Holds.truncateToWith_of_tier (ho : cold ≠ [] ∧ offset < l.firstLocalBase) :
    ∃ e, l.truncateToWith cold offset = (.error e, l) := by
  have hmem := h.firstLocalBase_mem
  unfold truncateToWith
  rw [if_neg (by omega), if_neg (by omega)]
  split
  · exact ⟨_, rfl⟩
  · exact ⟨_, rfl⟩

end

theorem truncateToWith_outside (h : offset < l.logStartOffset ∨ l.logEndOffset ≤ offset) :
    (l.truncateToWith cold offset).2 = l := by
  unfold truncateToWith
  split
  · rfl
  split
  · rfl
  · rw [if_pos (by omega)]

/-- A truncation does what it is to do, unless the offset is inside a batch and a later segment has
a batch. -/
theorem truncatesCleanly_iff (h : (l.behind cold).Holds bs) (offset : Int) :
    l.TruncatesCleanly cold bs offset ↔ ¬ l.Loses bs offset := by
  obtain ⟨hstart, hend, hnil⟩ := h.firstLocalBase_mem
  by_cases ho : cold ≠ [] ∧ offset < l.firstLocalBase
  · obtain ⟨e, he⟩ := h.truncateToWith_of_tier ho
    refine iff_of_true ⟨?_, ?_, ?_⟩ fun hl => by
      have := hl.1
      omega
    · rw [he]
      exact ⟨nofun, fun hc => absurd ho hc.2.2.2⟩
    · rw [he]
      exact nofun
    · rw [he]
      exact fun _ _ => ⟨rfl, fun _ hb => hb⟩
  have hcut := h.truncateToWith_behind ho
  have hok : (l.truncateToWith cold offset).1 = .ok () ↔ l.IsBoundary bs offset := by
    constructor
    · intro hok
      exact h.isBoundary_of_ok ((congrArg Prod.fst hcut).trans hok)
    · intro hb
      obtain ⟨l', hl', -⟩ := h.truncateToWith_of_isBoundary hb
      exact (congrArg Prod.fst hcut).symm.trans (congrArg Prod.fst hl')
  constructor
  · rintro hclean ⟨hlo, hno, s, hs, hlt, hne⟩
    have hhi : offset < l.logEndOffset := Int.lt_of_lt_of_le hlt
      (h.base_le_logEnd (segments_behind l cold ▸ List.mem_append_right _ hs))
    cases hr : (l.truncateToWith cold offset).1 with
    | error e => exact (h.keeps_iff hlo hhi hr).2.mp (hclean.keeps e hr).2 ⟨s, hs, hlt, hne⟩
    | ok u =>
      rcases hok.mp hr with heq | ⟨b, hb, hbase⟩
      · omega
      · exact hno b hb hbase
  · intro hl
    refine ⟨⟨fun hr => ?_, fun hr => hok.mpr hr.2.2.1⟩, fun hr => ?_, fun e he => ?_⟩
    · have hb := hok.mp hr
      obtain ⟨k, hk, hoff, -⟩ := h.isBoundary_iff.mp hb
      have hle := (h.chain.take k).le_endOf
      have hge := h.chain.endOf_take_le (j := k) (k := bs.length) hk
      rw [List.take_length, ← h.logEnd] at hge
      exact ⟨hoff ▸ hle, hoff ▸ hge, hb, ho⟩
    · obtain ⟨l', hl', hholds, hs, he⟩ := h.truncateToWith_of_isBoundary (hok.mp hr)
      have hleft : (l.truncateToWith cold offset).2.behind cold = l' :=
        (congrArg Prod.snd hcut).symm.trans (congrArg Prod.snd hl')
      subst hleft
      exact ⟨hholds, hs, he⟩
    · by_cases hin : l.logStartOffset ≤ offset ∧ offset < l.logEndOffset
      · have hlo : l.firstLocalBase ≤ offset := by
          by_contra hlt
          exact ho ⟨fun hc => hlt (hnil hc ▸ hin.1), Int.not_le.mp hlt⟩
        obtain ⟨hend', hiff⟩ := h.keeps_iff hlo hin.2 he
        refine ⟨hend', hiff.mpr fun hs => hl ⟨hlo, fun b hb hbase => ?_, hs⟩⟩
        rw [hok.mpr (.inr ⟨b, hb, hbase⟩)] at he
        cases he
      · rw [truncateToWith_outside (by omega)]
        exact ⟨rfl, fun _ hb => hb⟩

/-- A batch of two records and a batch of one, each in a segment of its own. -/
def twoSegments : PartitionLog :=
  { cfg := { segmentBytes := 1, fsyncPolicy := .none }
    older := [{ baseOffset := 0, blocks := [⟨{ recordCount := 2 }, [7]⟩], state := .closed }]
    active := { baseOffset := 2, blocks := [⟨{ baseOffset := 2, recordCount := 1 }, [8]⟩] }
    logStartOffset := 0, logEndOffset := 3, recoveryPoint := 2 }

theorem holds_twoSegments : (twoSegments.behind []).Holds
    [⟨{ recordCount := 2 }, [7]⟩, ⟨{ baseOffset := 2, recordCount := 1 }, [8]⟩] :=
  ⟨⟨rfl, ⟨rfl, by decide, trivial⟩, rfl, ⟨rfl, by decide, trivial⟩, trivial⟩, rfl, rfl, rfl,
    by decide⟩

/-- A truncation between the two batches. -/
theorem truncatesCleanly_twoSegments :
    twoSegments.TruncatesCleanly []
      [⟨{ recordCount := 2 }, [7]⟩, ⟨{ baseOffset := 2, recordCount := 1 }, [8]⟩] 2 :=
  (truncatesCleanly_iff holds_twoSegments 2).mpr fun h =>
    h.2.1 ⟨{ baseOffset := 2, recordCount := 1 }, [8]⟩ (by simp) rfl

/-- A truncation inside the first of two batches fails, and the second one is gone: the log is the
one that two appends give, it still ends at 3, and a read at 2 finds nothing. -/
theorem truncateTo_loses_batch :
    ((create twoSegments.cfg).append ⟨{ recordCount := 2 }, [7]⟩).bind (fun r =>
      (r.1.append ⟨{ recordCount := 1 }, [8]⟩).map Prod.fst) = .ok twoSegments ∧
    twoSegments.read 2 1 = .ok
      { batches := [⟨{ baseOffset := 2, recordCount := 1 }, [8]⟩], nextOffset := 3 } ∧
    (twoSegments.truncateToWith [] 1).1 =
      makeError .invalidArgument "truncate_to: el offset no es frontera de batch" ∧
    (twoSegments.truncateToWith [] 1).2.logEndOffset = 3 ∧
    (twoSegments.truncateToWith [] 1).2.read 2 1 = .ok { batches := [], nextOffset := 2 } := by
  decide

end PartitionLog

end Nexus
