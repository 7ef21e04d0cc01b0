import Nexus.Storage.PartitionLog

/-!
# What a partition log holds

A partition log holds one list of batches with consecutive offsets, whatever segments they are
cut into (`PartitionLog.Holds`). Each operation is an operation on that list:

* `Holds.append`: the rebased batch at the end.
* `Holds.truncateTo`: the batches below an offset.
* `Holds.truncatePrefixTo`: a suffix that still has every batch from the offset on.
* `holds_resetTo`: nothing, from the new offset on.
* `Holds.read`: the batches from the one that has the offset on, as long as those before do not
  reach the byte limit (`takeRun`).
-/

namespace Nexus

open List

variable {b : RecordBatch} {o offset : Int} {bs : List RecordBatch} {j k : Nat}
  {segs : List Segment} {s : Segment}

/-! ## Batches with consecutive offsets -/

/-- The offset after the batches, when the first one starts at `o`. -/
def endOf (o : Int) : List RecordBatch → Int
  | [] => o
  | b :: bs => endOf (b.lastOffset + 1) bs

/-- The batches follow one another from offset `o` on, and none is empty. -/
def Chain (o : Int) : List RecordBatch → Prop
  | [] => True
  | b :: bs => b.baseOffset = o ∧ 1 ≤ b.header.recordCount ∧ Chain (b.lastOffset + 1) bs

@[simp] theorem endOf_nil (o : Int) : endOf o [] = o := rfl

@[simp] theorem endOf_cons (o : Int) (b : RecordBatch) (bs : List RecordBatch) :
    endOf o (b :: bs) = endOf (b.lastOffset + 1) bs := rfl

@[simp] theorem chain_nil (o : Int) : Chain o [] := trivial

@[simp] theorem chain_cons (o : Int) (b : RecordBatch) (bs : List RecordBatch) :
    Chain o (b :: bs) ↔
      b.baseOffset = o ∧ 1 ≤ b.header.recordCount ∧ Chain (b.lastOffset + 1) bs := Iff.rfl

theorem endOf_append (o : Int) (bs cs : List RecordBatch) :
    endOf o (bs ++ cs) = endOf (endOf o bs) cs := by
  induction bs generalizing o with
  | nil => rfl
  | cons b bs ih => exact ih _

theorem chain_append (o : Int) (bs cs : List RecordBatch) :
    Chain o (bs ++ cs) ↔ Chain o bs ∧ Chain (endOf o bs) cs := by
  induction bs generalizing o with
  | nil => simp
  | cons b bs ih => simp [ih, and_assoc]

theorem lt_lastOffset_succ (hb : b.baseOffset = o) (hc : 1 ≤ b.header.recordCount) :
    o < b.lastOffset + 1 := by
  unfold RecordBatch.baseOffset at hb
  unfold RecordBatch.lastOffset
  omega

section

variable (h : Chain o bs)

include h

theorem Chain.le_endOf : o ≤ endOf o bs := by
  induction bs generalizing o with
  | nil => exact Int.le_refl _
  | cons b bs ih =>
    have := lt_lastOffset_succ h.1 h.2.1
    exact Int.le_trans (Int.le_of_lt this) (ih h.2.2)

theorem Chain.lt_endOf (hne : bs ≠ []) : o < endOf o bs := by
  cases bs with
  | nil => exact absurd rfl hne
  | cons b bs => exact Int.lt_of_lt_of_le (lt_lastOffset_succ h.1 h.2.1) h.2.2.le_endOf

theorem Chain.take (k : Nat) : Chain o (bs.take k) := by
  rw [← take_append_drop k bs, chain_append] at h
  exact h.1

theorem Chain.drop (k : Nat) : Chain (endOf o (bs.take k)) (bs.drop k) := by
  rw [← take_append_drop k bs, chain_append] at h
  exact h.2

/-- The offset grows with the number of batches. -/
theorem Chain.endOf_take_lt (hjk : j < k) (hk : k ≤ bs.length) :
    endOf o (bs.take j) < endOf o (bs.take k) := by
  have hsplit : bs.take k = bs.take j ++ (bs.drop j).take (k - j) := by
    rw [← take_add, Nat.add_sub_of_le (Nat.le_of_lt hjk)]
  rw [hsplit, endOf_append]
  refine ((h.drop j).take _).lt_endOf ?_
  rw [← length_pos_iff, length_take, length_drop]
  omega

theorem Chain.le_of_endOf_take_le (hj : j ≤ bs.length)
    (hle : endOf o (bs.take j) ≤ endOf o (bs.take k)) : j ≤ k := by
  refine Nat.le_of_not_lt fun hgt => ?_
  have := h.endOf_take_lt hgt hj
  omega

end

/-- A cut of a chain that falls inside its middle part is a cut of that part. -/
theorem Chain.cut_middle {xs ys zs : List RecordBatch} (h : Chain o (xs ++ (ys ++ zs)))
    (hk : k ≤ (xs ++ (ys ++ zs)).length) (hlo : endOf o xs ≤ endOf o ((xs ++ (ys ++ zs)).take k))
    (hhi : endOf o ((xs ++ (ys ++ zs)).take k) < endOf o (xs ++ ys)) :
    ∃ j < ys.length, (xs ++ (ys ++ zs)).take k = xs ++ ys.take j := by
  have hxs : (xs ++ (ys ++ zs)).take xs.length = xs := take_left
  have hys : (xs ++ (ys ++ zs)).take (xs ++ ys).length = xs ++ ys := by
    rw [← append_assoc, take_left]
  have hle : xs.length ≤ k := by
    refine h.le_of_endOf_take_le (by simp) ?_
    rw [hxs]; exact hlo
  have hlt : k < (xs ++ ys).length := by
    refine Nat.lt_of_not_le fun hge => ?_
    rcases Nat.lt_or_eq_of_le hge with hgt | heq
    · have := h.endOf_take_lt hgt hk
      rw [hys] at this
      omega
    · rw [← heq, hys] at hhi
      omega
  rw [length_append] at hlt
  refine ⟨k - xs.length, by omega, ?_⟩
  rw [take_append, take_of_length_le hle, take_append_of_le_length (by omega)]

/-- Where the batch at `k` starts. -/
theorem Chain.baseOffset_getElem (h : Chain o bs) (hb : bs[k]? = some b) :
    b.baseOffset = endOf o (bs.take k) := by
  obtain ⟨hk, rfl⟩ := List.getElem?_eq_some_iff.mp hb
  have hd := h.drop k
  rw [List.drop_eq_getElem_cons hk] at hd
  exact hd.1

theorem endOf_take_succ (hb : bs[k]? = some b) : endOf o (bs.take (k + 1)) = b.lastOffset + 1 := by
  obtain ⟨hk, rfl⟩ := List.getElem?_eq_some_iff.mp hb
  rw [List.take_succ_eq_append_getElem hk, endOf_append]
  rfl

section

variable (h : Chain o bs)

include h

theorem Chain.endOf_take_le (hjk : j ≤ k) :
    endOf o (bs.take j) ≤ endOf o (bs.take k) := by
  have hsplit : bs.take k = bs.take j ++ (bs.take k).drop j := by
    conv => lhs; rw [← take_append_drop j (bs.take k), take_take, Nat.min_eq_left hjk]
  rw [hsplit, endOf_append]
  have hk := h.take k
  rw [hsplit, chain_append] at hk
  exact hk.2.le_endOf

/-- A batch of a chain lies within the offsets of the chain. -/
theorem Chain.bounds (hb : b ∈ bs) :
    o ≤ b.baseOffset ∧ b.baseOffset ≤ b.lastOffset ∧ b.lastOffset < endOf o bs := by
  induction bs generalizing o with
  | nil => cases hb
  | cons c bs ih =>
    have hc := lt_lastOffset_succ h.1 h.2.1
    have hle := h.2.2.le_endOf
    rw [endOf_cons]
    rcases mem_cons.mp hb with rfl | hb
    · have := h.1
      omega
    · have := ih h.2.2 hb
      omega

theorem Chain.baseOffset_le_lastOffset (hb : b ∈ bs) :
    b.baseOffset ≤ b.lastOffset := (h.bounds hb).2.1

theorem Chain.le_baseOffset :
    ∀ b ∈ bs, o ≤ b.baseOffset := fun _ hb => (h.bounds hb).1

theorem Chain.le_lastOffset (ho : offset ≤ o) :
    ∀ b ∈ bs, offset ≤ b.lastOffset := fun _ hb =>
  Int.le_trans ho (Int.le_trans (h.bounds hb).1 (h.bounds hb).2.1)

theorem Chain.baseOffset_lt :
    ∀ b ∈ bs, b.baseOffset < endOf o bs := fun _ hb =>
  Int.lt_of_le_of_lt (h.bounds hb).2.1 (h.bounds hb).2.2

end

/-! ## Segments -/

/-- The blocks of the segments, in order. -/
def flat (segs : List Segment) : List RecordBatch := segs.flatMap Segment.blocks

@[simp] theorem flat_nil : flat [] = [] := rfl

@[simp] theorem flat_cons (s : Segment) (segs : List Segment) :
    flat (s :: segs) = s.blocks ++ flat segs := rfl

@[simp] theorem flat_append (ss ts : List Segment) : flat (ss ++ ts) = flat ss ++ flat ts :=
  flatMap_append

/-- Each segment starts where the one before ends; the first one at `o`. -/
def Layout (o : Int) : List Segment → Prop
  | [] => True
  | s :: segs => s.baseOffset = o ∧ Chain o s.blocks ∧ Layout (endOf o s.blocks) segs

@[simp] theorem layout_nil (o : Int) : Layout o [] := trivial

@[simp] theorem layout_cons (o : Int) (s : Segment) (segs : List Segment) :
    Layout o (s :: segs) ↔
      s.baseOffset = o ∧ Chain o s.blocks ∧ Layout (endOf o s.blocks) segs := Iff.rfl

theorem layout_append (o : Int) (ss ts : List Segment) :
    Layout o (ss ++ ts) ↔ Layout o ss ∧ Layout (endOf o (flat ss)) ts := by
  induction ss generalizing o with
  | nil => simp
  | cons s ss ih => simp [ih, endOf_append, and_assoc]

theorem Layout.chain (h : Layout o segs) : Chain o (flat segs) := by
  induction segs generalizing o with
  | nil => trivial
  | cons s segs ih => exact (chain_append _ _ _).mpr ⟨h.2.1, ih h.2.2⟩

theorem Layout.le_baseOffset (h : Layout o segs) : ∀ s ∈ segs, o ≤ s.baseOffset := by
  induction segs generalizing o with
  | nil => simp
  | cons s segs ih =>
    intro t ht
    rcases mem_cons.mp ht with rfl | ht
    · exact Int.le_of_eq h.1.symm
    · exact Int.le_trans h.2.1.le_endOf (ih h.2.2 t ht)

variable {older : List Segment} {active : Segment} {target : Int}

theorem Layout.baseOffset_headD
    (h : Layout o (older ++ [active])) : (older.headD active).baseOffset = o := by
  cases older with
  | nil => exact h.1
  | cons s older => exact h.1

theorem Layout.endOf_le (h : Layout o segs) :
    ∀ s ∈ segs, endOf s.baseOffset s.blocks ≤ endOf o (flat segs) := by
  induction segs generalizing o with
  | nil => simp
  | cons s segs ih =>
    intro t ht
    rw [flat_cons, endOf_append]
    rcases mem_cons.mp ht with rfl | ht
    · rw [h.1]
      exact h.2.2.chain.le_endOf
    · exact ih h.2.2 t ht

/-- The segments are in the order of their base offsets. -/
def Ascending (segs : List Segment) : Prop := segs.Pairwise (·.baseOffset < ·.baseOffset)

theorem Layout.ascending (h : Layout o (older ++ [active])) (hne : ∀ s ∈ older, s.blocks ≠ []) :
    Ascending (older ++ [active]) := by
  induction older generalizing o with
  | nil => exact pairwise_singleton _ _
  | cons s rest ih =>
    obtain ⟨hstart, hchain, hrest⟩ := h
    refine pairwise_cons.mpr ⟨fun t ht => ?_, ih hrest fun t ht => hne t (.tail _ ht)⟩
    have hlt := hchain.lt_endOf (hne s mem_cons_self)
    have hle := hrest.le_baseOffset t ht
    omega

/-- The scan finds the block that starts at the offset. -/
theorem Chain.positionIn (h : Chain o bs) (hj : j < bs.length) :
    Segment.positionIn (endOf o (bs.take j)) bs = .ok j := by
  induction bs generalizing o j with
  | nil => exact absurd hj (Nat.not_lt_zero _)
  | cons b bs ih =>
    unfold Segment.positionIn
    cases j with
    | zero => rw [take_zero, endOf_nil, if_pos h.1]
    | succ j =>
      have hlt : b.baseOffset < endOf o ((b :: bs).take (j + 1)) := by
        rw [h.1]
        exact (h.take (j + 1)).lt_endOf (by simp)
      rw [if_neg (by omega), if_neg (by omega), take_succ_cons, endOf_cons,
        ih h.2.2 (by simpa using hj)]
      rfl

theorem Segment.positionOf_spec (h : Chain s.baseOffset s.blocks) (hj : j < s.blocks.length) :
    s.positionOf (endOf s.baseOffset (s.blocks.take j)) = .ok j := by
  unfold positionOf
  rcases Nat.eq_zero_or_pos j with rfl | hpos
  · rw [take_zero, endOf_nil, if_pos rfl]
  · have := h.endOf_take_lt hpos (Nat.le_of_lt hj)
    rw [take_zero, endOf_nil] at this
    rw [if_neg (by omega), h.positionIn hj]

/-- The block that is found starts at the target. -/
theorem Chain.positionIn_eq_ok (h : Chain o bs)
    (hj : Segment.positionIn target bs = .ok j) : j ≤ bs.length ∧ target = endOf o (bs.take j) := by
  induction bs generalizing o j with
  | nil => cases hj
  | cons b bs ih =>
    unfold Segment.positionIn at hj
    split at hj
    · rename_i heq
      cases hj
      exact ⟨Nat.zero_le _, heq ▸ h.1⟩
    split at hj
    · cases hj
    · cases hp : Segment.positionIn target bs with
      | error e => rw [hp] at hj; cases hj
      | ok i =>
        rw [hp] at hj
        cases hj
        obtain ⟨hi, heq⟩ := ih h.2.2 hp
        exact ⟨Nat.succ_le_succ hi, heq⟩

theorem Segment.positionOf_eq_ok (h : Chain s.baseOffset s.blocks)
    (hj : s.positionOf target = .ok j) :
    j ≤ s.blocks.length ∧ target = endOf s.baseOffset (s.blocks.take j) := by
  unfold positionOf at hj
  split at hj
  · rename_i heq
    cases hj
    exact ⟨Nat.zero_le _, heq⟩
  · exact h.positionIn_eq_ok hj

theorem Segment.truncateTo_spec (h : Chain s.baseOffset s.blocks) (hj : j < s.blocks.length) :
    s.truncateTo (endOf s.baseOffset (s.blocks.take j)) =
      .ok { s with blocks := s.blocks.take j, state := .active } := by
  unfold truncateTo
  rw [positionOf_spec h hj]
  rfl

namespace PartitionLog

variable {offset : Int} {l : PartitionLog} {bs : List RecordBatch} {before : List Segment}
  {target : Segment} {batch : RecordBatch}

/-- `seek` splits the segments at the last one that starts at or below the offset. -/
theorem seek_spec (older : List Segment) (active : Segment) (h : Layout o (older ++ [active]))
    (ho : o ≤ offset) :
    ∃ later, older ++ [active] = (seek offset older active).1 ++ (seek offset older active).2 ::
        later ∧
      (seek offset older active).2.baseOffset ≤ offset ∧
      ∀ s ∈ later.head?, offset < s.baseOffset := by
  induction older generalizing o with
  | nil => exact ⟨[], rfl, by rw [← h.1] at ho; exact ho, by simp⟩
  | cons s rest ih =>
    unfold seek
    split
    · rename_i hle
      rw [h.2.2.baseOffset_headD] at hle
      obtain ⟨later, heq, hbase, hlater⟩ := ih h.2.2 hle
      exact ⟨later, by rw [cons_append, heq]; rfl, hbase, hlater⟩
    · rename_i hlt
      refine ⟨rest ++ [active], rfl, by rw [h.1]; exact ho, ?_⟩
      cases rest <;> simpa using hlt

/-- The log holds the batches `bs`, cut into segments. -/
structure Holds (l : PartitionLog) (bs : List RecordBatch) : Prop where
  layout : Layout l.logStartOffset l.segments
  blocks : flat l.segments = bs
  logEnd : l.logEndOffset = endOf l.logStartOffset bs
  active : l.active.state = .active
  older : ∀ s ∈ l.older, s.blocks ≠ []

section

variable (h : l.Holds bs)

include h

theorem Holds.chain :
    Chain l.logStartOffset bs := h.blocks ▸ h.layout.chain

/-- The log, taken apart at one of its segments. -/
theorem Holds.split {later : List Segment} (hsegs : l.segments = before ++ target :: later) :
    Layout l.logStartOffset before ∧ target.baseOffset = endOf l.logStartOffset (flat before) ∧
      Chain target.baseOffset target.blocks ∧
      Layout (endOf target.baseOffset target.blocks) later ∧
      flat before ++ (target.blocks ++ flat later) = bs := by
  have hlayout := h.layout
  have hflat := h.blocks
  rw [hsegs, layout_append, layout_cons] at hlayout
  rw [hsegs, flat_append, flat_cons] at hflat
  obtain ⟨hbefore, hstart, htarget, hlater⟩ := hlayout
  exact ⟨hbefore, hstart, by rwa [hstart], by rwa [hstart], hflat⟩

/-- The active segment ends where the log ends. -/
theorem Holds.endOf_active :
    endOf l.active.baseOffset l.active.blocks = l.logEndOffset := by
  obtain ⟨-, hstart, -, -, hflat⟩ := h.split rfl
  rw [hstart, ← endOf_append, h.logEnd, ← hflat, flat_nil, append_nil]

theorem Holds.ascending :
    Ascending l.segments := h.layout.ascending h.older

end

theorem holds_create (cfg : LogConfig) : (create cfg).Holds [] :=
  ⟨⟨rfl, trivial, trivial⟩, rfl, rfl, rfl, by simp [create]⟩

theorem maybeSync_eq (l : PartitionLog) (k : Nat) : ∃ p b,
    l.maybeSync k = { l with recoveryPoint := p, bytesSinceSync := b } := by
  unfold maybeSync
  split
  · exact ⟨_, _, rfl⟩
  · exact ⟨_, _, rfl⟩
  · dsimp only
    split
    · exact ⟨_, _, rfl⟩
    · exact ⟨_, _, rfl⟩

/-- What a log holds does not depend on what was synced. -/
theorem Holds.congr {l' : PartitionLog} (h : l.Holds bs) (ho : l'.older = l.older)
    (ha : l'.active = l.active) (hs : l'.logStartOffset = l.logStartOffset)
    (he : l'.logEndOffset = l.logEndOffset) : l'.Holds bs := by
  have hsegs : l'.segments = l.segments := by unfold segments; rw [ho, ha]
  exact ⟨by rw [hs, hsegs]; exact h.layout, by rw [hsegs]; exact h.blocks,
    by rw [he, hs]; exact h.logEnd, by rw [ha]; exact h.active, by rw [ho]; exact h.older⟩

/-! ## Append -/

theorem Holds.rollSegment (h : l.Holds bs) (hne : l.active.blocks ≠ []) :
    l.rollSegment.Holds bs := by
  obtain ⟨hbefore, hstart, hactive, -, hflat⟩ := h.split rfl
  rw [flat_nil, append_nil] at hflat
  rw [hstart] at hactive
  refine ⟨?_, ?_, h.logEnd, rfl, ?_⟩
  · simp [PartitionLog.rollSegment, segments, layout_append, Segment.sealSegment, Segment.create,
      hbefore, hstart, hactive, h.logEnd, ← hflat, endOf_append]
  · simp [PartitionLog.rollSegment, segments, Segment.sealSegment, Segment.create, hflat]
  · intro s hs
    rcases mem_append.mp hs with hs | hs
    · exact h.older s hs
    · rw [mem_singleton.mp hs]; exact hne

theorem blocks_ne_nil_of_mustRoll (h : l.mustRoll) : l.active.blocks ≠ [] := by
  intro hnil
  simp [mustRoll, Segment.isEmpty, Segment.sizeBytes, blockBytes, hnil] at h

theorem Holds.rolled (h : l.Holds bs) :
    l.rolled.Holds bs ∧ l.rolled.logStartOffset = l.logStartOffset ∧
      l.rolled.logEndOffset = l.logEndOffset := by
  unfold PartitionLog.rolled
  split
  · rename_i hr; exact ⟨h.rollSegment (blocks_ne_nil_of_mustRoll hr), rfl, rfl⟩
  · exact ⟨h, rfl, rfl⟩

/-- A batch at the end of the active segment. -/
theorem Holds.push (h : l.Holds bs) (hc : 1 ≤ batch.header.recordCount) :
    Holds { l with
      active := { l.active with blocks := l.active.blocks ++ [batch.rebase l.logEndOffset] }
      logEndOffset := (batch.rebase l.logEndOffset).lastOffset + 1 }
      (bs ++ [batch.rebase l.logEndOffset]) := by
  obtain ⟨hbefore, hstart, hactive, -, hflat⟩ := h.split rfl
  rw [flat_nil, append_nil] at hflat
  rw [hstart] at hactive
  refine ⟨?_, ?_, ?_, h.active, h.older⟩
  · simp [segments, layout_append, chain_append, hbefore, hstart, hactive, hc, h.logEnd, ← hflat,
      endOf_append]
  · simp [segments, ← hflat]
  · simp [endOf_append]

theorem Holds.append (h : l.Holds bs) (hc : 1 ≤ batch.header.recordCount) :
    ∃ l', l.append batch = .ok (l', (batch.rebase l.logEndOffset).lastOffset) ∧
      l'.Holds (bs ++ [batch.rebase l.logEndOffset]) ∧
      l'.logStartOffset = l.logStartOffset := by
  obtain ⟨hr, hstart, hend⟩ := h.rolled
  rw [← hstart, ← hend]
  unfold PartitionLog.append
  dsimp only
  generalize l.rolled = r at hr ⊢
  rw [Segment.append, if_neg (by rw [hr.active]; simp)]
  obtain ⟨p, b, hsync⟩ := maybeSync_eq { r with
    active := { r.active with blocks := r.active.blocks ++ [batch.rebase r.logEndOffset] }
    logEndOffset := (batch.rebase r.logEndOffset).lastOffset + 1 }
    (batch.rebase r.logEndOffset).encodedSize
  refine ⟨_, rfl, ?_, by rw [hsync]⟩
  rw [hsync]
  exact (hr.push hc).congr rfl rfl rfl rfl

/-! ## Truncation -/

theorem seek_subset (offset : Int) (older : List Segment) (active : Segment) :
    ∀ s ∈ (seek offset older active).1, s ∈ older := by
  induction older with
  | nil => simp [seek]
  | cons r rest ih =>
    unfold seek
    split
    · intro s hs
      rcases mem_cons.mp hs with rfl | hs
      · exact mem_cons_self
      · exact mem_cons_of_mem _ (ih s hs)
    · simp

section

variable (h : l.Holds bs)

include h

/-- An offset where a batch starts is in the segment that `seek` finds. -/
theorem Holds.seek_cut (hk : k < bs.length)
    (hseek : seek (endOf l.logStartOffset (bs.take k)) l.older l.active = (before, target)) :
    ∃ later j, l.segments = before ++ target :: later ∧ j < target.blocks.length ∧
      bs.take k = flat before ++ target.blocks.take j ∧
      endOf l.logStartOffset (bs.take k) = endOf target.baseOffset (target.blocks.take j) ∧
      ∀ s ∈ before, s ∈ l.older := by
  have hchain := h.chain
  obtain ⟨later, hsegs, hbase, hlater⟩ := seek_spec l.older l.active h.layout
    (hchain.take k).le_endOf
  have hsub := seek_subset (endOf l.logStartOffset (bs.take k)) l.older l.active
  rw [hseek] at hsegs hbase hsub
  obtain ⟨-, hstart, -, hrest, rfl⟩ := h.split hsegs
  have hhi : endOf l.logStartOffset ((flat before ++ (target.blocks ++ flat later)).take k) <
      endOf l.logStartOffset (flat before ++ target.blocks) := by
    cases later with
    | nil =>
      rw [flat_nil, append_nil] at hk hchain ⊢
      have := hchain.endOf_take_lt hk (Nat.le_refl _)
      rwa [take_length] at this
    | cons r later =>
      rw [endOf_append, ← hstart, ← hrest.1]
      exact hlater r rfl
  obtain ⟨j, hj, hcut⟩ := hchain.cut_middle (Nat.le_of_lt hk) (by rw [← hstart]; exact hbase) hhi
  refine ⟨later, j, hsegs, hj, hcut, ?_, hsub⟩
  rw [hcut, endOf_append, ← hstart]

/-- An offset where a block of the segment that `seek` finds starts is where a batch starts. -/
theorem Holds.eq_of_positionOf (ho : l.logStartOffset ≤ offset)
    (hj : (seek offset l.older l.active).2.positionOf offset = .ok j) :
    ∃ k ≤ bs.length, offset = endOf l.logStartOffset (bs.take k) := by
  obtain ⟨later, hsegs, -, -⟩ := seek_spec l.older l.active h.layout ho
  generalize seek offset l.older l.active = found at hj hsegs
  obtain ⟨-, hstart, htarget, -, rfl⟩ := h.split hsegs
  obtain ⟨hle, heq⟩ := Segment.positionOf_eq_ok htarget hj
  refine ⟨(flat found.1).length + j, ?_, ?_⟩
  · rw [length_append, length_append]
    omega
  · rw [heq, take_length_add_append, take_append_of_le_length hle, endOf_append, ← hstart]

/-- The log up to a place in one of its segments. -/
theorem Holds.keep {later : List Segment}
    (hsegs : l.segments = before ++ target :: later) (hbefore : ∀ s ∈ before, s ∈ l.older)
    (j : Nat) :
    Holds { l with
      older := before
      active := { target with blocks := target.blocks.take j, state := .active }
      logEndOffset := endOf l.logStartOffset (flat before ++ target.blocks.take j) }
      (flat before ++ target.blocks.take j) ∧
    endOf l.logStartOffset (flat before ++ target.blocks.take j) ≤ l.logEndOffset := by
  obtain ⟨hbefore', hstart, htarget, hrest, hflat⟩ := h.split hsegs
  refine ⟨⟨?_, ?_, rfl, rfl, fun s hs => h.older s (hbefore s hs)⟩, ?_⟩
  · simp only [segments, layout_append, layout_cons, layout_nil, and_true]
    exact ⟨hbefore', hstart, hstart ▸ htarget.take j⟩
  · simp [segments]
  · have hle := htarget.endOf_take_le (j := j) (k := max j target.blocks.length)
      (Nat.le_max_left _ _)
    rw [take_of_length_le (Nat.le_max_right _ _)] at hle
    rw [h.logEnd, ← hflat, endOf_append, endOf_append, endOf_append, ← hstart]
    exact Int.le_trans hle hrest.chain.le_endOf

theorem Holds.endOf_take_lt (hk : k < bs.length) :
    l.logStartOffset ≤ endOf l.logStartOffset (bs.take k) ∧
      endOf l.logStartOffset (bs.take k) < l.logEndOffset := by
  have hlt := h.chain.endOf_take_lt hk (Nat.le_refl _)
  rw [take_length, ← h.logEnd] at hlt
  exact ⟨(h.chain.take k).le_endOf, hlt⟩

theorem Holds.truncateTo (hk : k ≤ bs.length) :
    ∃ l', l.truncateTo (endOf l.logStartOffset (bs.take k)) = .ok l' ∧
      l'.Holds (bs.take k) ∧ l'.logStartOffset = l.logStartOffset := by
  unfold PartitionLog.truncateTo
  rcases Nat.lt_or_eq_of_le hk with hlt | rfl
  · obtain ⟨hge, hle⟩ := h.endOf_take_lt hlt
    rw [if_neg (by omega), if_neg (by omega), if_neg (by omega)]
    rcases hseek : seek (endOf l.logStartOffset (bs.take k)) l.older l.active with ⟨before, target⟩
    obtain ⟨later, j, hsegs, hj, hcut, hoff, hsub⟩ := h.seek_cut hlt hseek
    obtain ⟨-, -, htarget, -⟩ := h.split hsegs
    dsimp only
    rw [hoff, Segment.truncateTo_spec htarget hj, ← hoff, hcut]
    exact ⟨_, rfl, (h.keep hsegs hsub j).1.congr rfl rfl rfl rfl, rfl⟩
  · rw [take_length, if_pos h.logEnd.symm]
    exact ⟨l, rfl, h, rfl⟩

end

theorem dropPrefix_spec (older : List Segment) (active : Segment)
    (h : Layout o (older ++ [active])) (ho : o ≤ offset) :
    ∃ dropped, older = dropped ++ dropPrefix offset older active ∧
      endOf o (flat dropped) ≤ offset := by
  induction older generalizing o with
  | nil => exact ⟨[], rfl, ho⟩
  | cons s rest ih =>
    unfold dropPrefix
    split
    · rename_i hle
      rw [h.2.2.baseOffset_headD] at hle
      obtain ⟨dropped, heq, hend⟩ := ih h.2.2 hle
      refine ⟨s :: dropped, by rw [cons_append, ← heq], ?_⟩
      rw [flat_cons, endOf_append]
      exact hend
    · exact ⟨[], rfl, ho⟩

/-- The log without the segments that end at or below an offset. -/
theorem Holds.dropPrefix (h : l.Holds bs) (ho : l.logStartOffset ≤ offset) :
    ∃ l' j,
      l' = { l with
        older := PartitionLog.dropPrefix offset l.older l.active
        logStartOffset :=
          ((PartitionLog.dropPrefix offset l.older l.active).headD l.active).baseOffset } ∧
      l'.Holds (bs.drop j) ∧ l'.logStartOffset = endOf l.logStartOffset (bs.take j) ∧
      j ≤ bs.length ∧ l'.logStartOffset ≤ offset := by
  obtain ⟨dropped, holder, hend⟩ := dropPrefix_spec l.older l.active h.layout ho
  generalize PartitionLog.dropPrefix offset l.older l.active = kept at holder ⊢
  have hflat := h.blocks
  have hlayout := h.layout
  rw [segments, holder, append_assoc] at hflat hlayout
  rw [layout_append] at hlayout
  rw [flat_append] at hflat
  have hcut : bs.take (flat dropped).length = flat dropped := by rw [← hflat, take_left]
  have hrest : bs.drop (flat dropped).length = flat (kept ++ [l.active]) := by
    rw [← hflat, drop_left]
  have hhead := hlayout.2.baseOffset_headD
  refine ⟨_, (flat dropped).length, rfl, ⟨?_, ?_, ?_, h.active, ?_⟩, ?_, ?_, ?_⟩
  · rw [segments]; dsimp only; rw [hhead]; exact hlayout.2
  · rw [hrest]; rfl
  · dsimp only
    rw [hhead, h.logEnd, hrest, ← endOf_append, hflat]
  · intro s hs
    exact h.older s (by rw [holder]; exact mem_append_right _ hs)
  · rw [hcut]; exact hhead
  · rw [← hflat, length_append]; exact Nat.le_add_right _ _
  · dsimp only; rw [hhead]; exact hend

/-- The log keeps every batch from the offset on, and may keep some before it. -/
theorem Holds.truncatePrefixTo (h : l.Holds bs) (k : Nat) :
    ∃ l' j, l.truncatePrefixTo (endOf l.logStartOffset (bs.take k)) = .ok l' ∧ j ≤ k ∧
      l'.Holds (bs.drop j) ∧ l'.logStartOffset = endOf l.logStartOffset (bs.take j) := by
  have hchain := h.chain
  unfold PartitionLog.truncatePrefixTo
  split
  · exact ⟨l, 0, rfl, Nat.zero_le _, h, rfl⟩
  rename_i hgt
  have hle : endOf l.logStartOffset (bs.take k) ≤ l.logEndOffset := by
    rw [h.logEnd]
    conv => rhs; rw [← take_append_drop k bs, endOf_append]
    exact (hchain.drop k).le_endOf
  rw [if_neg (by omega)]
  obtain ⟨l', j, rfl, hholds, hstart, hj, hend⟩ := h.dropPrefix (hchain.take k).le_endOf
  exact ⟨_, j, rfl, hchain.le_of_endOf_take_le hj (by rw [← hstart]; exact hend), hholds, hstart⟩

theorem holds_resetTo (l : PartitionLog) (ho : 0 ≤ o) :
    ∃ l', l.resetTo o = .ok l' ∧ l'.Holds [] ∧ l'.logStartOffset = o := by
  unfold PartitionLog.resetTo
  rw [if_neg (by omega)]
  exact ⟨_, rfl, ⟨⟨rfl, trivial, trivial⟩, rfl, rfl, rfl, by simp⟩, rfl⟩

end PartitionLog

/-! ## Read -/

@[simp] theorem blockBytes_nil : blockBytes [] = 0 := rfl

@[simp] theorem blockBytes_cons (b : RecordBatch) (bs : List RecordBatch) :
    blockBytes (b :: bs) = b.encodedSize + blockBytes bs := rfl

@[simp] theorem blockBytes_append (bs cs : List RecordBatch) :
    blockBytes (bs ++ cs) = blockBytes bs + blockBytes cs := by
  simp [blockBytes]

/-- The batches up to the first one that brings the total to `m` bytes, which is included. -/
def takeRun (m : Nat) : List RecordBatch → List RecordBatch
  | [] => []
  | b :: bs => if m = 0 then [] else b :: takeRun (m - b.encodedSize) bs

@[simp] theorem takeRun_nil (m : Nat) : takeRun m [] = [] := rfl

@[simp] theorem takeRun_zero (bs : List RecordBatch) : takeRun 0 bs = [] := by cases bs <;> rfl

variable {m : Nat}

theorem takeRun_cons (hm : 0 < m) (b : RecordBatch) (bs : List RecordBatch) :
    takeRun m (b :: bs) = b :: takeRun (m - b.encodedSize) bs := if_neg (by omega)

/-- What fits, after a first batch that need not fit, is taken. -/
theorem takeRun_append (hm : 0 < m) {p : List RecordBatch}
    (hp : p = [] ∨ blockBytes (b :: p) ≤ m) (rest : List RecordBatch) :
    takeRun m ((b :: p) ++ rest) = (b :: p) ++ takeRun (m - blockBytes (b :: p)) rest := by
  induction p generalizing b m with
  | nil =>
    simp only [cons_append, nil_append, takeRun_cons hm, blockBytes_cons, blockBytes_nil,
      Nat.add_zero]
  | cons c p ih =>
    have hfit : blockBytes (b :: c :: p) ≤ m := by simpa using hp
    rw [blockBytes_cons] at hfit
    have hpos := RecordBatch.encodedSize_pos c
    have hcp : 0 < blockBytes (c :: p) := by rw [blockBytes_cons]; omega
    rw [cons_append, takeRun_cons hm, ih (by omega) (.inr (by omega)), cons_append,
      cons_append, blockBytes_cons b, Nat.sub_sub]
    rfl

theorem takeRun_of_le (h : blockBytes bs ≤ m) : takeRun m bs = bs := by
  induction bs generalizing m with
  | nil => rfl
  | cons b bs ih =>
    have hpos := b.encodedSize_pos
    rw [blockBytes_cons] at h
    rw [takeRun_cons (by omega), ih (by omega)]

theorem takeRun_subset (m : Nat) (bs : List RecordBatch) : takeRun m bs ⊆ bs := by
  induction bs generalizing m with
  | nil => simp
  | cons b bs ih =>
    rcases Nat.eq_zero_or_pos m with rfl | hm
    · simp
    · rw [takeRun_cons hm]
      exact cons_subset_cons b (ih _)

/-- Is the batch wholly below the offset? -/
def below (offset : Int) (b : RecordBatch) : Bool := b.lastOffset < offset

theorem Chain.below_endOf (h : Chain o bs) :
    ∀ b ∈ bs, below (endOf o bs) b := fun _ hb => decide_eq_true (h.bounds hb).2.2

/-- The batches that are not below a cut are those after it. -/
theorem Chain.dropWhile_below {cs : List RecordBatch} (h : Chain o (bs ++ cs)) :
    (bs ++ cs).dropWhile (below (endOf o bs)) = cs := by
  rw [chain_append] at h
  rw [dropWhile_append_of_pos h.1.below_endOf]
  cases cs with
  | nil => rfl
  | cons c cs =>
    have := lt_lastOffset_succ h.2.1 h.2.2.1
    rw [dropWhile_cons_of_neg]
    simp only [below, decide_eq_true_iff]
    omega

theorem Chain.le_lastOffset_of_mem_dropWhile (h : Chain o bs) :
    ∀ b ∈ bs.dropWhile (below offset), offset ≤ b.lastOffset := by
  induction bs generalizing o with
  | nil => exact nofun
  | cons c bs ih =>
    by_cases hc : below offset c
    · rw [dropWhile_cons_of_pos hc]
      exact ih h.2.2
    · have hle : offset ≤ c.lastOffset := Int.not_lt.mp fun hlt => hc (decide_eq_true hlt)
      rw [dropWhile_cons_of_neg hc]
      intro b hb
      rcases mem_cons.mp hb with rfl | hb
      · exact hle
      · exact h.2.2.le_lastOffset (by omega) b hb

/-- The first batch of a chain that is not below an offset has it. -/
theorem Chain.dropWhile_eq_cons (h : Chain o bs) (hlo : o ≤ offset) (hhi : offset < endOf o bs) :
    ∃ b cs, bs.dropWhile (below offset) = b :: cs ∧ b.baseOffset ≤ offset ∧
      offset ≤ b.lastOffset := by
  induction bs generalizing o with
  | nil => rw [endOf_nil] at hhi; omega
  | cons b bs ih =>
    by_cases hb : b.lastOffset < offset
    · rw [dropWhile_cons_of_pos (by simpa [below] using hb)]
      exact ih h.2.2 (by omega) hhi
    · rw [dropWhile_cons_of_neg (by simpa [below] using hb)]
      exact ⟨b, bs, rfl, by rw [h.1]; exact hlo, by omega⟩

namespace Segment

theorem readFrom_dropWhile (offset : Int) (m : Nat) (bs : List RecordBatch) (r : FetchResult) :
    readFrom offset m bs r = readFrom offset m (bs.dropWhile (below offset)) r := by
  induction bs with
  | nil => rfl
  | cons b bs ih =>
    by_cases hb : b.lastOffset < offset
    · rw [dropWhile_cons_of_pos (by simpa [below] using hb), ← ih, readFrom, if_pos hb]
    · rw [dropWhile_cons_of_neg (by simpa [below] using hb)]

/-- Once a batch is taken, the scan takes the batches that still fit. -/
theorem readFrom_spec {m : Nat} (hbs : ∀ b ∈ bs, offset ≤ b.lastOffset) {r : FetchResult}
    (hr : r.batches ≠ []) :
    ∃ p rest, bs = p ++ rest ∧ (p = [] ∨ blockBytes (r.batches ++ p) ≤ m) ∧
      readFrom offset m bs r =
        { batches := r.batches ++ p, nextOffset := endOf r.nextOffset p } := by
  induction bs generalizing r with
  | nil => exact ⟨[], [], rfl, .inl rfl, by simp [readFrom]⟩
  | cons b bs ih =>
    have hb := hbs b mem_cons_self
    unfold readFrom
    rw [if_neg (by omega)]
    split
    · exact ⟨[], b :: bs, rfl, .inl rfl, by simp⟩
    · rename_i hfit
      obtain ⟨p, rest, hsplit, hp, heq⟩ := ih (fun c hc => hbs c (mem_cons_of_mem _ hc))
        (r := { batches := r.batches ++ [b], nextOffset := b.lastOffset + 1 }) (by simp)
      refine ⟨b :: p, rest, by rw [hsplit]; rfl, .inr ?_, ?_⟩
      · rcases hp with rfl | hp
        · have : ¬ blockBytes r.batches + b.encodedSize > m := fun h => hfit ⟨hr, h⟩
          rw [blockBytes_append, blockBytes_cons, blockBytes_nil]
          omega
        · rwa [append_assoc] at hp
      · rw [heq]; simp

/-- A read takes the batches from the offset on: a first one, and those after it that fit. -/
theorem read_spec (hd : s.blocks.dropWhile (below offset) = b :: bs)
    (hbs : ∀ c ∈ b :: bs, offset ≤ c.lastOffset) (m : Nat) :
    ∃ p rest, bs = p ++ rest ∧ (p = [] ∨ blockBytes (b :: p) ≤ m) ∧
      s.read offset m = { batches := b :: p, nextOffset := endOf (b.lastOffset + 1) p } := by
  have hb := hbs b mem_cons_self
  obtain ⟨p, rest, hsplit, hp, heq⟩ := readFrom_spec (m := m)
    (fun c hc => hbs c (mem_cons_of_mem _ hc))
    (r := { batches := [b], nextOffset := b.lastOffset + 1 }) (by simp)
  refine ⟨p, rest, hsplit, hp, ?_⟩
  rw [read, readFrom_dropWhile, hd, readFrom, if_neg (by omega), if_neg (by simp)]
  exact heq

end Segment

namespace PartitionLog

variable {l : PartitionLog} {bs : List RecordBatch}

section

variable (h : l.Holds bs) {cursor : Int}

include h

/-- The log from a cursor inside it on: what one segment still has, and, for each part of it that is
read, the rest. -/
theorem Holds.segmentFor (hlo : l.logStartOffset ≤ cursor) (hhi : cursor < l.logEndOffset) :
    ∃ s b cs, l.segmentFor cursor = some s ∧ s.baseOffset ≤ cursor ∧
      s.blocks.dropWhile (below cursor) = b :: cs ∧ (∀ x ∈ b :: cs, cursor ≤ x.lastOffset) ∧
      ∀ p rest, cs = p ++ rest → cursor < endOf (b.lastOffset + 1) p ∧
        bs.dropWhile (below cursor) =
          (b :: p) ++ bs.dropWhile (below (endOf (b.lastOffset + 1) p)) := by
  obtain ⟨later, hsegs, hbase, hlater⟩ := seek_spec l.older l.active h.layout hlo
  rw [PartitionLog.segmentFor, if_pos (by rw [h.layout.baseOffset_headD]; exact hlo)]
  generalize seek cursor l.older l.active = found at hsegs hbase ⊢
  obtain ⟨before, target⟩ := found
  dsimp only at hsegs hbase ⊢
  obtain ⟨hbefore, hstart, htarget, hrest, hblocks⟩ := h.split hsegs
  have hend : cursor < endOf target.baseOffset target.blocks := by
    cases later with
    | nil =>
      have hend := h.logEnd
      rw [← hblocks, flat_nil, append_nil, endOf_append, ← hstart] at hend
      omega
    | cons r later => rw [← hrest.1]; exact hlater r rfl
  obtain ⟨b, cs, hd, -, hb⟩ := htarget.dropWhile_eq_cons hbase hend
  have hdrop : bs.dropWhile (below cursor) = b :: (cs ++ flat later) := by
    rw [← hblocks, dropWhile_append_of_pos, dropWhile_append, hd]
    · rfl
    · intro x hx
      have hx' := (hbefore.chain.bounds hx).2.2
      exact decide_eq_true (by omega)
  have hle : ∀ x ∈ b :: cs, cursor ≤ x.lastOffset := hd ▸ htarget.le_lastOffset_of_mem_dropWhile
  refine ⟨target, b, cs, rfl, hbase, hd, hle, ?_⟩
  rintro p rest rfl
  have hsplit : bs = (bs.takeWhile (below cursor) ++ b :: p) ++ (rest ++ flat later) := by
    rw [append_assoc, cons_append, ← append_assoc p, ← hdrop,
      takeWhile_append_dropWhile]
  have hchain := hsplit ▸ h.chain
  have hnext := hchain.dropWhile_below
  rw [← hsplit, endOf_append, endOf_cons] at hnext
  rw [append_assoc, chain_append, cons_append, chain_cons, chain_append] at hchain
  have := hchain.2.2.2.1.le_endOf
  exact ⟨by omega, by rw [hnext, hdrop]; simp⟩

/-- There is nothing from the end of the log on. -/
theorem Holds.dropWhile_end {c : Int} (hc : l.logEndOffset ≤ c) :
    bs.dropWhile (below c) = [] := by
  rw [← append_nil bs, dropWhile_append_of_pos]
  · rfl
  · intro b hb
    have hb' := of_decide_eq_true (h.chain.below_endOf b hb)
    rw [← h.logEnd] at hb'
    exact decide_eq_true (by omega)

/-- The loop of `read` from a cursor on, with enough turns left. -/
theorem Holds.readLoop {m fuel : Nat} {r : FetchResult}
    (hlo : l.logStartOffset ≤ cursor) (hfuel : (l.logEndOffset - cursor).toNat ≤ fuel) :
    let taken := takeRun (m - blockBytes r.batches) (bs.dropWhile (below cursor))
    l.readLoop m fuel cursor r =
      { batches := r.batches ++ taken, nextOffset := endOf r.nextOffset taken } := by
  induction fuel generalizing cursor r with
  | zero =>
    rw [h.dropWhile_end (by omega)]
    simp [PartitionLog.readLoop]
  | succ fuel ih =>
    unfold PartitionLog.readLoop
    split
    · rename_i hc
      obtain ⟨s, b, cs, hseg, -, hd, hle, hsplit⟩ := h.segmentFor hlo hc.1
      obtain ⟨p, rest, hcs, hp, hread⟩ := Segment.read_spec hd hle (m - blockBytes r.batches)
      obtain ⟨hmove, hrest⟩ := hsplit p rest hcs
      have hlocal : l.readLocal cursor (m - blockBytes r.batches) =
          { batches := b :: p, nextOffset := endOf (b.lastOffset + 1) p } := by
        rw [readLocal, hseg]
        exact hread
      simp only [hlocal, cons_ne_nil, if_false]
      rw [ih (by omega) (by omega), hrest, takeRun_append (by omega) hp]
      simp only [blockBytes_append, append_assoc, endOf_append, endOf_cons, Nat.sub_sub]
    · rename_i hc
      by_cases hend : cursor < l.logEndOffset
      · have : m - blockBytes r.batches = 0 := by
          have : ¬ blockBytes r.batches < m := fun hlt => hc ⟨hend, hlt⟩
          omega
        simp [this]
      · rw [h.dropWhile_end (by omega)]
        simp

theorem Holds.read (ho : l.logStartOffset ≤ offset) (m : Nat) :
    let taken := takeRun m (bs.dropWhile (below offset))
    l.read offset m = .ok { batches := taken, nextOffset := endOf offset taken } := by
  unfold PartitionLog.read
  rw [if_neg (by omega), h.readLoop ho (Nat.le_refl _)]
  simp

/-- A read of one byte at a batch's offset gives that batch. -/
theorem Holds.read_one (hb : bs[k]? = some b) :
    l.read b.baseOffset 1 = .ok { batches := [b], nextOffset := b.lastOffset + 1 } := by
  obtain ⟨hk, rfl⟩ := List.getElem?_eq_some_iff.mp hb
  have hsplit : bs = bs.take k ++ bs[k] :: bs.drop (k + 1) := by
    rw [← List.drop_eq_getElem_cons hk, List.take_append_drop]
  have hbase := h.chain.baseOffset_getElem hb
  have hdrop : bs.dropWhile (below bs[k].baseOffset) = bs[k] :: bs.drop (k + 1) := by
    have := Chain.dropWhile_below (hsplit ▸ h.chain)
    rwa [← hsplit, ← hbase] at this
  have hstart : l.logStartOffset ≤ bs[k].baseOffset := by
    rw [hbase]; exact (h.chain.take k).le_endOf
  have hpos := RecordBatch.encodedSize_pos bs[k]
  rw [h.read hstart, hdrop, takeRun_cons (by omega), show 1 - bs[k].encodedSize = 0 by omega]
  simp

end

end PartitionLog

end Nexus
