import Nexus.Storage.LogRuns

/-!
# Recovery of a torn log

A crash may leave only the first bytes of the active segment file. The next `open` keeps the batches
that lie within them, and all of the other segments (`openDirectory_torn`); what it leaves in the
directory opens again without a change.
-/

namespace Nexus.Raw

open Lib List

/-- The batches that lie within the first `n` bytes, if the first one starts at `position`. -/
def wholeWithin (size : RecordBatch → Nat) (n position : Nat) : List RecordBatch → List RecordBatch
  | [] => []
  | b :: bs => if position + size b ≤ n then b :: wholeWithin size n (position + size b) bs else []

theorem wholeWithin_isPrefix (size : RecordBatch → Nat) (n position : Nat) (bs : List RecordBatch) :
    wholeWithin size n position bs <+: bs := by
  induction bs generalizing position with
  | nil => exact prefix_refl _
  | cons b bs ih =>
    unfold wholeWithin
    split
    · exact (prefix_cons_inj b).mpr (ih _)
    · exact nil_prefix

/-- A file of frames that is cut has whole frames and the first bytes of the next one. -/
theorem exists_tornTail {cipher : Option SegmentCipher} {blocks : List RecordBatch}
    {frames : List Bytes} (hframes : List.Forall₂ (Framed cipher) blocks frames) {o : Int}
    (hchain : Chain o blocks) (hfits : ∀ b ∈ blocks, b.Fits) {n position : Nat}
    (hn : position ≤ n) :
    ∃ frames' tail,
      List.Forall₂ (Framed cipher) (wholeWithin (onDiskSize cipher) n position blocks) frames' ∧
      frames.flatten.take (n - position) = frames'.flatten ++ tail ∧
      TornTail cipher (endOf o (wholeWithin (onDiskSize cipher) n position blocks)) tail := by
  induction hframes generalizing o position with
  | nil => exact ⟨[], [], .nil, by simp, .inl rfl⟩
  | @cons b frame blocks frames hframe hframes ih =>
    have hlen := hframe.length
    unfold wholeWithin
    split
    · rename_i hle
      obtain ⟨frames', tail, hframes', htake, htail⟩ :=
        ih hchain.2.2 (fun x hx => hfits x (.tail _ hx)) hle
      refine ⟨frame :: frames', tail, .cons hframe hframes', ?_, htail⟩
      rw [flatten_cons, flatten_cons, take_append, take_of_length_le (by omega),
        append_assoc, ← htake, hlen, Nat.sub_sub]
    · rename_i hgt
      refine ⟨[], frame.take (n - position), .nil, ?_, .inr ⟨b, frame, hfits b mem_cons_self,
        hchain.1, hframe, take_prefix _ _, ?_⟩⟩
      · rw [flatten_cons, take_append_of_le_length (by omega), flatten_nil,
          nil_append]
      · rw [length_take]
        omega

namespace Segment

variable {key : Option EncryptionKey} {s : Segment} {blocks : List RecordBatch}

/-- The segment with only the first `n` bytes of its file. -/
def firstBytes (s : Segment) (n : Nat) : Segment :=
  { s with log := s.log.take n, sizeBytes := (s.log.take n).length }

/-- A segment file that is cut after its header. -/
theorem Stores.firstBytes (h : s.Stores key blocks) {n : Nat} (hn : s.dataStart ≤ n) :
    ∃ tail, (s.firstBytes n).Torn key
      (wholeWithin (onDiskSize s.cipher) n s.dataStart blocks) tail := by
  obtain ⟨header, frames, hheader, hlen, hframes, hlog⟩ := h.file
  obtain ⟨frames', tail, hframes', htake, htail⟩ := exists_tornTail hframes h.chain h.fits hn
  obtain ⟨rest, hrest⟩ := wholeWithin_isPrefix (onDiskSize s.cipher) n s.dataStart blocks
  have hchain := h.chain
  have hspan := h.span
  have hbytes := h.bytes
  have hsize := h.size
  rw [← hrest, chain_append] at hchain
  rw [← hrest, endOf_append] at hspan
  have hle := hchain.2.le_endOf
  refine ⟨tail, ⟨header, frames', hheader, hlen, hframes', ?_⟩, htail, rfl, fun b hb => ?_,
    hchain.1, ?_, ?_, h.indexBase⟩
  · change s.log.take n = _
    rw [hlog, append_nil, take_append, take_of_length_le (by omega), hlen, htake]
  · exact h.fits b ((wholeWithin_isPrefix _ _ _ _).subset hb)
  · change (s.log.take n).length < 2 ^ 32
    rw [length_take]
    omega
  · change endOf s.baseOffset _ - s.baseOffset < 2 ^ 32
    omega

end Segment

/-- The directory after a crash that left only the first `n` bytes of a `.log`. -/
def Directory.cutLog (dir : Directory) (base : Int) (n : Nat) : Directory :=
  { dir with logs := dir.logs.map fun file =>
      if file.1 = base then (file.1, file.2.take n) else file }

namespace PartitionLog

variable {l : PartitionLog} {g : Nexus.PartitionLog} {bs : List RecordBatch} {n : Nat}

/-- Only the `.log` of the active segment is cut. -/
theorem Models.cutLog (h : l.Models g) (hg : g.Holds bs) (n : Nat) :
    l.files.cutLog l.active.baseOffset n = files { l with active := l.active.firstBytes n } := by
  have hlt : ∀ s ∈ l.older, s.baseOffset < l.active.baseOffset := fun s hs => by
    obtain ⟨t, ht, hrep⟩ := exists_represents h.older s hs
    rw [hrep.baseOffset, h.active.baseOffset]
    exact (pairwise_append.mp hg.ascending).2.2 t ht _ mem_cons_self
  have holder : (l.older.map fun s => (s.baseOffset, s.log)).map (fun file =>
      if file.1 = l.active.baseOffset then (file.1, file.2.take n) else file) =
      l.older.map fun s => (s.baseOffset, s.log) := by
    rw [map_map]
    refine map_congr_left fun s hs => ?_
    have := hlt s hs
    exact if_neg (by dsimp only; omega)
  unfold Directory.cutLog files segments
  dsimp only
  rw [map_append, map_append, holder, map_append, map_append]
  simp [Segment.firstBytes]

/-- The batches in the files of a log with the batches `c`, if only `n` bytes of its active segment
file are left. -/
def left (l : PartitionLog) (c : BatchList) (n : Nat) : List RecordBatch :=
  c.batches.filter (fun b =>
    l.logStartOffset ≤ b.baseOffset ∧ b.baseOffset < l.active.baseOffset) ++
  wholeWithin (onDiskSize l.active.cipher) n l.active.dataStart
    (c.batches.filter fun b => l.active.baseOffset ≤ b.baseOffset)

/-- The files that the crash leaves. -/
theorem Models.laid (h : l.Models g) (hg : g.Holds bs) (hnonneg : 0 ≤ l.logStartOffset)
    (hn : l.active.dataStart ≤ n) :
    ∃ g' tail, Laid { l with active := l.active.firstBytes n } g'
      (flat g.older ++
        wholeWithin (onDiskSize l.active.cipher) n l.active.dataStart g.active.blocks) tail ∧
      g'.logStartOffset = l.logStartOffset ∧ g'.logEndOffset ≤ l.logEndOffset := by
  obtain ⟨tail, htorn⟩ := h.active.stores.firstBytes hn
  obtain ⟨rest, hrest⟩ :=
    wholeWithin_isPrefix (onDiskSize l.active.cipher) n l.active.dataStart g.active.blocks
  generalize wholeWithin (onDiskSize l.active.cipher) n l.active.dataStart g.active.blocks = kept
    at htorn hrest ⊢
  have hlayout := hg.layout
  have hflat := hg.blocks
  have hend := hg.logEnd
  rw [Nexus.PartitionLog.segments, layout_append, layout_cons, ← hrest, chain_append] at hlayout
  rw [Nexus.PartitionLog.segments, flat_append, flat_cons, flat_nil, append_nil, ← hrest]
    at hflat
  rw [← hflat, ← append_assoc, endOf_append] at hend
  obtain ⟨hbefore, hbase, ⟨hkept, hcut⟩, -⟩ := hlayout
  have hle : endOf g.logStartOffset (flat g.older ++ kept) ≤ g.logEndOffset := by
    rw [hend, endOf_append]
    exact hcut.le_endOf
  refine ⟨{ g with
    active := { g.active with blocks := kept }
    logEndOffset := endOf g.logStartOffset (flat g.older ++ kept) }, tail,
    ⟨⟨?_, ?_, rfl, hg.active, hg.older⟩, h.older, h.active.baseOffset, htorn,
      ⟨_, _, _, h.active.stores.anchored⟩, ?_⟩, h.logStart.symm, h.logEnd ▸ hle⟩
  · rw [Nexus.PartitionLog.segments, layout_append, layout_cons]
    exact ⟨hbefore, hbase, hkept, trivial⟩
  · rw [Nexus.PartitionLog.segments, flat_append, flat_cons, flat_nil, append_nil]
  · rw [← h.logStart]
    exact hnonneg

theorem Models.cut (h : l.Models g) (hg : g.Holds bs) (hl : l.Holds bs)
    (hn : l.active.dataStart ≤ n) :
    ∃ g' tail, Cut { l with active := l.active.firstBytes n } g'
      (flat g.older ++
        wholeWithin (onDiskSize l.active.cipher) n l.active.dataStart g.active.blocks) tail ∧
      g'.logStartOffset = l.logStartOffset := by
  obtain ⟨g', tail, hlaid, hstart, hend⟩ := h.laid hg hl.nonneg hn
  exact ⟨g', tail, ⟨hlaid, Int.lt_of_le_of_lt hend hl.bound⟩, hstart⟩

/-- Which batches are in which segments can be told from their offsets. -/
theorem Models.left_eq (h : l.Models g) {c : BatchList} (hchain : Chain c.start c.batches) {k : Nat}
    (hg : g.Holds (c.batches.drop k)) (hstart : l.logStartOffset = endOf c.start (c.batches.take k))
    (n : Nat) :
    l.left c n = flat g.older ++
      wholeWithin (onDiskSize l.active.cipher) n l.active.dataStart g.active.blocks := by
  have hflat := hg.blocks
  rw [Nexus.PartitionLog.segments, flat_append, flat_cons, flat_nil, append_nil] at hflat
  have hsplit : c.batches = c.batches.take k ++ (flat g.older ++ g.active.blocks) := by
    rw [hflat, take_append_drop]
  have hlayout := hg.layout
  rw [Nexus.PartitionLog.segments, layout_append, layout_cons, ← h.logStart,
    ← h.active.baseOffset] at hlayout
  obtain ⟨hbefore, hbase, hactive, -⟩ := hlayout
  rw [← hbase] at hactive
  have hdropped : ∀ b ∈ c.batches.take k, b.baseOffset < l.logStartOffset := fun b hb => by
    rw [hstart]
    exact (hchain.take k).baseOffset_lt b hb
  have holder : ∀ b ∈ flat g.older,
      l.logStartOffset ≤ b.baseOffset ∧ b.baseOffset < l.active.baseOffset := fun b hb => by
    rw [hbase]
    exact ⟨hbefore.chain.le_baseOffset b hb, hbefore.chain.baseOffset_lt b hb⟩
  have hle : l.logStartOffset ≤ l.active.baseOffset := by
    rw [hbase]
    exact hbefore.chain.le_endOf
  have hin := hactive.le_baseOffset
  have hfirst : c.batches.filter (fun b =>
      l.logStartOffset ≤ b.baseOffset ∧ b.baseOffset < l.active.baseOffset) = flat g.older := by
    rw [hsplit, filter_append, filter_append, filter_eq_nil_iff.mpr,
      filter_eq_self.mpr, filter_eq_nil_iff.mpr, nil_append, append_nil]
    · intro b hb
      have := hin b hb
      simp only [decide_eq_true_iff]
      omega
    · exact fun b hb => decide_eq_true (holder b hb)
    · intro b hb
      have := hdropped b hb
      simp only [decide_eq_true_iff]
      omega
  have hsecond : c.batches.filter (fun b => l.active.baseOffset ≤ b.baseOffset) =
      g.active.blocks := by
    rw [hsplit, filter_append, filter_append, filter_eq_nil_iff.mpr,
      filter_eq_nil_iff.mpr, filter_eq_self.mpr, nil_append, nil_append]
    · exact fun b hb => decide_eq_true (hin b hb)
    · intro b hb
      have := holder b hb
      simp only [decide_eq_true_iff]
      omega
    · intro b hb
      have := hdropped b hb
      simp only [decide_eq_true_iff]
      omega
  unfold left
  rw [hfirst, hsecond]

end PartitionLog

/-- After a crash that left `n` bytes of the active segment file, the log opens with the batches
that are whole in the files, and once more without a change. -/
theorem openDirectory_torn {steps : List Step} {l : PartitionLog} (h : PartitionLog.Run steps l)
    {n : Nat} (hn : l.active.dataStart ≤ n) {cfg : LogConfig}
    (hkey : cfg.encryptionKey = l.cfg.encryptionKey) (salt : Salt) :
    ∃ l', PartitionLog.openDirectory cfg (l.files.cutLog l.active.baseOffset n) salt = .ok l' ∧
      l'.Holds (l.left (.after steps) n) ∧ l'.logStartOffset = l.logStartOffset ∧
      l'.logEndOffset = endOf l.logStartOffset (l.left (.after steps) n) ∧
      (∀ (offset : Int) (m : Nat), l.logStartOffset ≤ offset → offset < l'.logEndOffset → 0 < m →
        ∃ taken last, ShortestRun (l.left (.after steps) n) offset m taken ∧
          taken.getLast? = some last ∧
          l'.read offset m =
            .ok { batches := encodeAll taken, nextOffset := last.lastOffset + 1 }) ∧
      ∀ salt', PartitionLog.openDirectory cfg l'.files salt' = .ok l' := by
  have href := h.refines
  obtain ⟨k, -, hholds, hstart⟩ := href.kept
  obtain ⟨g, hm, hg⟩ := hholds.models
  obtain ⟨g', tail, hcut, hstart'⟩ := hm.cut hg ⟨hholds, h.bound⟩ hn
  rw [← hm.left_eq href.chain hg hstart] at hcut
  obtain ⟨hleft, hstart''⟩ := hcut.reopened hkey
  have hlogStart := hstart''.trans hstart'
  refine ⟨_, ?_, hleft, hlogStart, ?_, fun offset m hlo hhi hm' => ?_, fun salt' => ?_⟩
  · rw [hm.cutLog hg]
    exact hcut.openDirectory_files hkey hholds.orphans salt
  · rw [← hlogStart]
    exact hleft.logEnd
  · rw [← hlogStart] at hlo
    exact hleft.read_shortest hlo hhi hm'
  · obtain ⟨g₂, hcut₂, -⟩ := hleft.cut
    exact (hcut₂.openDirectory_files rfl hleft.orphans salt').trans
      (congrArg Except.ok (hcut.reopened_reopened cfg))

/-- The second of two batches is cut. -/
theorem openDirectory_torn_secondBatch :
    ∃ l l', PartitionLog.Run [.append twoRecords, .append twoRecords] l ∧
      PartitionLog.openDirectory {} (l.files.cutLog l.active.baseOffset 70) noRandom.salt =
        .ok l' ∧
      l'.logEndOffset = 2 ∧ PartitionLog.openDirectory {} l'.files noRandom.salt = .ok l' := by
  have hlog : (PartitionLog.logAfter {} noRandom [.append twoRecords, .append twoRecords]).map
      (fun l => (l.cfg.encryptionKey.isNone, l.active.cipher.isNone, l.active.dataStart,
        l.logStartOffset, l.active.baseOffset)) = some (true, true, 0, 0, 0) := by
    decide +kernel
  obtain ⟨l, hl, hfields⟩ := Option.map_eq_some_iff.mp hlog
  simp only [Prod.mk.injEq, Option.isNone_iff_eq_none] at hfields
  obtain ⟨hkey, hcipher, hdata, hstart, hbase⟩ := hfields
  have hrun := PartitionLog.run_of_logAfter hl
  obtain ⟨l', hopen, -, -, hend, -, hagain⟩ := openDirectory_torn hrun
    (show l.active.dataStart ≤ 70 by omega) (show ({} : LogConfig).encryptionKey = _ from hkey.symm)
    noRandom.salt
  refine ⟨l, l', hrun, hopen, ?_, hagain _⟩
  rw [hend, PartitionLog.left, hcipher, hdata, hstart, hbase]
  decide +kernel

end Nexus.Raw
