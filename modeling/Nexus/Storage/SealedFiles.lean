import Nexus.Storage.TornTail

/-!
# Logs that are encrypted from their first byte on

What is in the files of a log that was only ever opened with a key. A segment is encrypted if its
`.log` starts with an encryption header (`Segment.Sealed`), and so it stays through every call:
positions below the end of the header are never written or cut. `Segment::open` tells it by the
first 32 bytes of the file alone, so that a crash may leave any file with any number of bytes from
32 on, and any `.index` (`PartitionLog.Remains`).

Fewer bytes than a header open as an empty segment in clear.
-/

namespace Nexus.Raw

open Lib Raw.PartitionLog Raw.Segment

namespace Segment

/-- An encrypted segment: its key is derived from the salt in its file. -/
structure Sealed (key : EncryptionKey) (s : Segment) (salt : Salt) : Prop where
  cipher : s.cipher = some (key salt.bytes)
  dataStart : s.dataStart = kEncSegmentHeaderSize
  header : encodeSegmentHeader salt <+: s.log
  size : s.sizeBytes = s.log.length

variable {s s' : Segment} {key : EncryptionKey} {salt : Salt} {base : Int} {interval position : Nat}
  {index : List IndexEntry} {target : Int}

/-- The `.index` and the state say nothing about it. -/
theorem Sealed.withIndex (h : s.Sealed key salt) (index : SparseIndex) (state : SegmentState) :
    Sealed key { s with index, state } salt :=
  ⟨h.cipher, h.dataStart, h.header, h.size⟩

theorem sealed_create
    (h : create [] index base interval (some key) salt = .ok s) : s.Sealed key salt := by
  unfold create at h
  split at h
  · cases h
  · cases h
    have hlog : writeAt [] 0 (encodeSegmentHeader salt) = encodeSegmentHeader salt := by
      simp [writeAt]
    refine ⟨rfl, rfl, ?_, ?_⟩
    · exact hlog.symm ▸ List.prefix_rfl
    · dsimp only
      rw [hlog, length_encodeSegmentHeader]

theorem sealed_openFiles {log : Bytes} (hheader : encodeSegmentHeader salt <+: log)
    (h : openFiles log index base interval (some key) = .ok s) : s.Sealed key salt := by
  have hsize := length_encodeSegmentHeader salt
  have hslice : slice log 0 kEncSegmentHeaderSize = encodeSegmentHeader salt := by
    obtain ⟨rest, rfl⟩ := hheader
    exact @slice_field [] _ _ _ _ rfl hsize
  have hdetect : detect log (some key) = .ok (some (key salt.bytes), kEncSegmentHeaderSize) := by
    unfold detect
    dsimp only
    rw [hslice, if_pos ⟨hsize ▸ hheader.length_le, isEncryptedSegmentHeader_encode salt⟩,
      parseSegmentHeader_encode]
  unfold openFiles at h
  rw [hdetect] at h
  dsimp only at h
  split at h
  · cases h
  · cases h
    exact ⟨rfl, rfl, hheader, rfl⟩

/-- The block is written after the header, and only its ciphertext. -/
theorem Sealed.append (h : s.Sealed key salt) {b : RecordBatch} {nonce : Nonce} {last : Int}
    (ha : s.append b nonce = .ok (s', last)) :
    s'.Sealed key salt ∧ ∃ frame, (key salt.bytes).sealBlock b.encode b.header.baseOffset
      b.header.recordCount nonce = .ok frame ∧ s'.log = s.log ++ frame := by
  unfold Segment.append at ha
  split at ha
  · cases ha
  · split at ha
    · cases ha
    · rename_i frame hframe
      rw [h.cipher] at hframe
      cases ha
      have hlog := writeAt_end h.size frame
      refine ⟨⟨h.cipher, h.dataStart, ?_, ?_⟩, frame, hframe, hlog⟩
      · dsimp only
        rw [hlog]
        exact h.header.trans (List.prefix_append _ _)
      · dsimp only
        rw [hlog, List.length_append, h.size]

theorem Sealed.cutAt (h : s.Sealed key salt) (hp : s.dataStart ≤ position) :
    (s.cutAt position).Sealed key salt := by
  unfold Segment.cutAt
  split
  · rename_i hlt
    refine ⟨h.cipher, h.dataStart, ?_, ?_⟩
    · refine List.prefix_take_iff.mpr ⟨h.header, ?_⟩
      rw [length_encodeSegmentHeader, ← h.dataStart]
      exact hp
    · dsimp only
      rw [List.length_take, ← h.size]
      omega
  · exact h

/-- A loop over the blocks only goes up. -/
theorem le_scanBlocks {σ : Type} (s : Segment) (visit : σ → Nat → BlockHeader → σ × Bool)
    (position : Nat) (acc : σ) : position ≤ (s.scanBlocks visit position acc).2 := by
  refine s.scanBlocks_invariant (P := fun p _ => position ≤ p) (fun p _ _ _ hp => ?_)
    (Nat.le_refl _)
  split <;> omega

theorem Sealed.recover (h : s.Sealed key salt) : s.recover.1.Sealed key salt :=
  (h.cutAt (le_scanBlocks s _ _ _)).withIndex _ _

theorem le_positionOf (h : s.positionOf target = .ok position) :
    s.dataStart ≤ position := by
  have hscan : ∀ p ∈ (s.scanBlocks (positionVisit target) s.dataStart none).1, s.dataStart ≤ p := by
    refine (s.scanBlocks_invariant
      (P := fun p (found : Option Nat) => s.dataStart ≤ p ∧ ∀ q ∈ found, s.dataStart ≤ q)
      (fun p found info _ hp => ?_)
      ⟨Nat.le_refl _, fun _ hq => absurd hq (Option.not_mem_none _)⟩).2
    unfold positionVisit
    split
    · exact ⟨hp.1, fun q hq => Option.mem_some_iff.mp hq ▸ hp.1⟩
    · split
      · exact hp
      · exact ⟨Nat.le_add_right_of_le hp.1, hp.2⟩
  unfold positionOf at h
  split at h
  · cases h
    exact Nat.le_refl _
  · split at h
    · rename_i p hfound
      cases h
      exact hscan _ hfound
    · cases h

theorem Sealed.truncateTo (h : s.Sealed key salt)
    (ht : s.truncateTo target = .ok s') : s'.Sealed key salt := by
  unfold Segment.truncateTo at ht
  split at ht
  · cases ht
  · rename_i position hposition
    cases ht
    exact (h.cutAt (le_positionOf hposition)).withIndex _ _

end Segment

namespace PartitionLog

variable {s : Segment} {random : Random} {offset : Int} {bs : List RecordBatch}

/-- Every segment is encrypted. -/
structure Sealed (key : EncryptionKey) (l : PartitionLog) : Prop where
  configured : l.cfg.encryptionKey = some key
  older : ∀ s ∈ l.older, ∃ salt, s.Sealed key salt
  active : ∃ salt, l.active.Sealed key salt

/-- What a crash may leave of the files of a log, if every `.log` keeps its header: some of the
files are gone, others are cut, and the `.index` files are arbitrary. -/
def Remains (l : PartitionLog) (dir : Directory) : Prop :=
  ∀ file ∈ dir.logs, ∃ s ∈ l.segments, ∃ n, kEncSegmentHeaderSize ≤ n ∧
    file = (s.baseOffset, s.log.take n)

/-- Every batch that is appended is written as an encrypted block, after what is in the file of the
active segment or in that of a new one, and both start with an encryption header. -/
def SealsAppends (key : EncryptionKey) (l : PartitionLog) : Prop :=
  ∀ (batch : RecordBatch) (random : Random) (l' : PartitionLog) (last : Int),
    l.append batch random = .ok (l', last) →
    ∃ salt front frame, encodeSegmentHeader salt <+: front ∧
      (front = l.active.log ∨ front = encodeSegmentHeader salt) ∧
      (key salt.bytes).sealBlock (batch.rebase l.logEndOffset).encode l.logEndOffset
        batch.header.recordCount random.nonce = .ok frame ∧
      l'.active.log = front ++ frame

variable {l l' : PartitionLog} {key : EncryptionKey} {cfg : LogConfig} {salt : Salt}

theorem Sealed.segments (h : l.Sealed key) : ∀ s ∈ l.segments, ∃ salt, s.Sealed key salt := by
  intro s hs
  rcases List.mem_append.mp hs with hs | hs
  · exact h.older s hs
  · exact List.mem_singleton.mp hs ▸ h.active

theorem Sealed.maybeSync (h : l.Sealed key) (bytes : Nat) : (l.maybeSync bytes).Sealed key := by
  obtain ⟨salt, hactive⟩ := h.active
  obtain ⟨ix, p, k, heq, -⟩ := maybeSync_eq l bytes
  rw [heq]
  exact ⟨h.configured, h.older, salt, hactive.withIndex ix _⟩

theorem log_maybeSync (l : PartitionLog) (bytes : Nat) :
    (l.maybeSync bytes).active.log = l.active.log := by
  obtain ⟨ix, p, k, heq, -⟩ := maybeSync_eq l bytes
  rw [heq]

section

variable (h : l.Sealed key) {batch : RecordBatch} {last : Int}

include h

theorem Sealed.createSegment {base : Int} (hs : l.createSegment base salt = .ok s) :
    s.Sealed key salt ∧ s.log = encodeSegmentHeader salt := by
  unfold PartitionLog.createSegment at hs
  rw [h.configured] at hs
  have hsealed := sealed_create hs
  refine ⟨hsealed, ?_⟩
  unfold create at hs
  split at hs
  · cases hs
  · cases hs
    simp [writeAt]

theorem Sealed.rollSegment (hl : l.rollSegment salt = .ok l') :
    l'.Sealed key ∧ l'.active.log = encodeSegmentHeader salt := by
  obtain ⟨s, hs, rfl⟩ := exists_of_map_eq_ok hl
  obtain ⟨hsealed, hlog⟩ := h.createSegment hs
  refine ⟨⟨h.configured, fun t ht => ?_, salt, hsealed⟩, hlog⟩
  rcases List.mem_append.mp ht with ht | ht
  · exact h.older t ht
  · obtain ⟨salt', hactive⟩ := h.active
    exact ⟨salt', List.mem_singleton.mp ht ▸ hactive.withIndex _ _⟩

theorem Sealed.rolled (hl : l.rolled salt = .ok l') :
    l'.Sealed key ∧ l'.logEndOffset = l.logEndOffset ∧
      (l'.active.log = l.active.log ∨ l'.active.log = encodeSegmentHeader salt) := by
  unfold PartitionLog.rolled at hl
  split at hl
  · obtain ⟨hsealed, hlog⟩ := h.rollSegment hl
    obtain ⟨s, -, rfl⟩ := exists_of_map_eq_ok hl
    exact ⟨hsealed, rfl, .inr hlog⟩
  · cases hl
    exact ⟨h, rfl, .inl rfl⟩

theorem Sealed.write {nonce : Nonce} (hl : l.write batch nonce = .ok (l', last)) :
    l'.Sealed key ∧ ∃ salt frame, encodeSegmentHeader salt <+: l.active.log ∧
      (key salt.bytes).sealBlock (batch.rebase l.logEndOffset).encode l.logEndOffset
        batch.header.recordCount nonce = .ok frame ∧
      l'.active.log = l.active.log ++ frame := by
  obtain ⟨salt, hactive⟩ := h.active
  unfold PartitionLog.write at hl
  dsimp only at hl
  split at hl
  · cases hl
  · rename_i active last' happend
    obtain ⟨hsealed, frame, hframe, hlog⟩ := hactive.append happend
    have hwritten : Sealed key { l with active, logEndOffset := last' + 1 } :=
      ⟨h.configured, h.older, salt, hsealed⟩
    cases hl
    exact ⟨hwritten.maybeSync _, salt, frame, hactive.header, hframe,
      (log_maybeSync _ _).trans hlog⟩

theorem Sealed.append (hl : l.append batch random = .ok (l', last)) : l'.Sealed key := by
  unfold PartitionLog.append at hl
  split at hl
  · cases hl
  · rename_i l₁ hrolled
    exact ((h.rolled hrolled).1.write hl).1

theorem Sealed.sealsAppends : l.SealsAppends key := by
  intro batch random l' last hl
  unfold PartitionLog.append at hl
  split at hl
  · cases hl
  · rename_i l₁ hrolled
    obtain ⟨hsealed, hend, hfront⟩ := h.rolled hrolled
    obtain ⟨-, salt, frame, hheader, hframe, hlog⟩ := hsealed.write hl
    rw [hend] at hframe
    refine ⟨salt, l₁.active.log, frame, hheader, hfront.imp_right fun hnew => ?_, hframe, hlog⟩
    -- the new file is a header and nothing else, so that this is the header of the segment
    rw [hnew] at hheader ⊢
    refine (hheader.eq_of_length ?_).symm
    rw [length_encodeSegmentHeader, length_encodeSegmentHeader]

end

theorem mem_seek (offset : Int) (older : List Segment) (active : Segment) :
    (∀ s ∈ (seek offset older active).1, s ∈ older) ∧
      (seek offset older active).2 ∈ older ++ [active] := by
  induction older with
  | nil => exact ⟨fun _ => List.not_mem_nil.elim, List.mem_cons_self⟩
  | cons t rest ih =>
    unfold seek
    split
    · refine ⟨fun s hs => ?_, List.mem_cons_of_mem _ ih.2⟩
      rcases List.mem_cons.mp hs with rfl | hs
      · exact List.mem_cons_self
      · exact List.mem_cons_of_mem _ (ih.1 s hs)
    · exact ⟨fun _ => List.not_mem_nil.elim, List.mem_cons_self⟩

theorem Sealed.seek (h : l.Sealed key) (offset : Int) :
    (∀ s ∈ (seek offset l.older l.active).1, ∃ salt, s.Sealed key salt) ∧
      ∃ salt, (seek offset l.older l.active).2.Sealed key salt := by
  obtain ⟨hbefore, htarget⟩ := mem_seek offset l.older l.active
  exact ⟨fun s hs => h.older s (hbefore s hs), h.segments _ htarget⟩

theorem Sealed.truncateTo (h : l.Sealed key) (hl : l.truncateTo offset = .ok l') :
    l'.Sealed key := by
  unfold PartitionLog.truncateTo at hl
  split at hl
  · cases hl
    exact h
  · split at hl
    · cases hl
    · split at hl
      · cases hl
      · obtain ⟨hbefore, salt, htarget⟩ := h.seek offset
        dsimp only at hl
        split at hl
        · cases hl
        · rename_i target hcut
          cases hl
          exact ⟨h.configured, hbefore, salt, htarget.truncateTo hcut⟩

theorem dropPrefix_subset (offset : Int) (older : List Segment) (active : Segment) :
    dropPrefix offset older active ⊆ older := by
  induction older with
  | nil => exact List.Subset.refl _
  | cons s rest ih =>
    unfold dropPrefix
    split
    · exact List.subset_cons_of_subset _ ih
    · exact List.Subset.refl _

theorem Sealed.truncatePrefixTo (h : l.Sealed key) (hl : l.truncatePrefixTo offset = .ok l') :
    l'.Sealed key := by
  unfold PartitionLog.truncatePrefixTo at hl
  split at hl
  · cases hl
    exact h
  · split at hl
    · cases hl
    · cases hl
      exact ⟨h.configured, fun s hs => h.older s (dropPrefix_subset _ _ _ hs), h.active⟩

theorem Sealed.resetTo (h : l.Sealed key) (hl : l.resetTo offset salt = .ok l') :
    l'.Sealed key := by
  unfold PartitionLog.resetTo at hl
  split at hl
  · cases hl
  · obtain ⟨s, hs, rfl⟩ := exists_of_map_eq_ok hl
    exact ⟨h.configured, nofun, salt, (h.createSegment hs).1⟩

/-- A directory in which every `.log` has a header, or in which there is none, opens as an encrypted
log. -/
theorem sealed_openDirectory {dir : Directory} (hkey : cfg.encryptionKey = some key)
    (hdir : ∀ file ∈ dir.logs, ∃ salt, encodeSegmentHeader salt <+: file.2)
    (hl : openDirectory cfg dir salt = .ok l) : l.Sealed key := by
  unfold openDirectory at hl
  rw [hkey] at hl
  dsimp only at hl
  split at hl
  · cases hl
  · rename_i segments hopened
    have hsegments : ∀ s ∈ segments, ∃ salt, s.Sealed key salt := fun s hs => by
      obtain ⟨file, hfile, hs⟩ := exists_of_mem_mapM hopened hs
      obtain ⟨salt', hheader⟩ := hdir file (List.mem_insertionSort _ |>.mp hfile)
      exact ⟨salt', sealed_openFiles hheader hs⟩
    split at hl
    · obtain ⟨s, hs, rfl⟩ := exists_of_map_eq_ok hl
      exact ⟨hkey, nofun, salt, sealed_create hs⟩
    · rename_i last hlast
      cases hl
      obtain ⟨salt', hsealed⟩ := hsegments last (List.mem_of_getLast? hlast)
      exact ⟨hkey, fun s hs => hsegments s (List.dropLast_subset _ hs), salt', hsealed.recover⟩

theorem Sealed.remains (h : l.Sealed key) {dir : Directory} (hdir : l.Remains dir) :
    ∀ file ∈ dir.logs, ∃ salt, encodeSegmentHeader salt <+: file.2 := by
  intro file hfile
  obtain ⟨s, hs, n, hn, rfl⟩ := hdir file hfile
  obtain ⟨salt, hsealed⟩ := h.segments s hs
  exact ⟨salt, List.prefix_take_iff.mpr
    ⟨hsealed.header, by rwa [length_encodeSegmentHeader]⟩⟩

theorem remains_files (l : PartitionLog) : l.Remains l.files := by
  intro file hfile
  obtain ⟨s, hs, rfl⟩ := List.mem_map.mp hfile
  exact ⟨s, hs, max kEncSegmentHeaderSize s.log.length, Nat.le_max_left _ _,
    by rw [List.take_of_length_le (Nat.le_max_right _ _)]⟩

theorem Sealed.step (h : l.Sealed key) {s : Step} (hkey : cfg.encryptionKey = some key)
    (hl : s.exec cfg random l = .ok l') : l'.Sealed key := by
  cases s with
  | append batch =>
    obtain ⟨⟨l₁, last⟩, hl₁, rfl⟩ := exists_of_map_eq_ok hl
    exact h.append hl₁
  | truncateTo offset => exact h.truncateTo hl
  | truncatePrefixTo offset => exact h.truncatePrefixTo hl
  | resetTo offset => exact h.resetTo hl
  | reopen => exact sealed_openDirectory hkey (h.remains l.remains_files) hl

/-- The logs of a directory that was only ever opened with the key, through any calls, also such
that fail, and through crashes that leave the headers whole. -/
inductive Keyed (key : EncryptionKey) : PartitionLog → Prop where
  | created {cfg : LogConfig} {dir : Directory} {salt : Salt} {l : PartitionLog} :
      cfg.encryptionKey = some key → dir.logs = [] → openDirectory cfg dir salt = .ok l →
      Keyed key l
  | step {l l' : PartitionLog} {s : Step} {cfg : LogConfig} {random : Random} :
      Keyed key l → cfg.encryptionKey = some key → s.exec cfg random l = .ok l' → Keyed key l'
  /-- A segment is rolled, and the batch is not written. -/
  | rolled {l l' : PartitionLog} {salt : Salt} :
      Keyed key l → l.rollSegment salt = .ok l' → Keyed key l'
  /-- `truncate_to` with an offset inside a batch: the later segments are gone when it fails. -/
  | refused {l : PartitionLog} {offset : Int} : Keyed key l →
      Keyed key { l with
        older := (seek offset l.older l.active).1
        active := (seek offset l.older l.active).2 }
  | crashed {l l' : PartitionLog} {dir : Directory} {cfg : LogConfig} {salt : Salt} :
      Keyed key l → l.Remains dir → cfg.encryptionKey = some key →
      openDirectory cfg dir salt = .ok l' → Keyed key l'

theorem Keyed.isSealed (h : l.Keyed key) : l.Sealed key := by
  induction h with
  | created hkey hdir hl => exact sealed_openDirectory hkey (by rw [hdir]; exact nofun) hl
  | step _ hkey hl ih => exact ih.step hkey hl
  | rolled _ hl ih => exact (ih.rollSegment hl).1
  | @refused l offset _ ih => exact ⟨ih.configured, (ih.seek offset).1, (ih.seek offset).2⟩
  | crashed _ hdir hkey hl ih => exact sealed_openDirectory hkey (ih.remains hdir) hl

/-! ## Less than a header -/

/-- The segment that a `.log` of fewer bytes than a header is taken for. -/
def shortSegment (s : Segment) (n : Nat) : Segment :=
  { s.firstBytes n with cipher := none, dataStart := 0 }

theorem openFiles_short {log : Bytes} (hlog : log.length < kEncSegmentHeaderSize) {interval : Nat}
    {index : SparseIndex}
    (hindex : SparseIndex.openFile s.index.file s.baseOffset interval = .ok index)
    (key : Option EncryptionKey) :
    openFiles log s.index.file s.baseOffset interval key =
      .ok { baseOffset := s.baseOffset, log, index, sizeBytes := log.length } := by
  unfold openFiles detect
  dsimp only
  rw [if_neg fun henc => Nat.not_le_of_lt hlog henc.1]
  dsimp only
  rw [hindex]

/-- An empty segment in clear. -/
structure Clear (s : Segment) : Prop where
  cipher : s.cipher = none
  dataStart : s.dataStart = 0
  log : s.log = []
  size : s.sizeBytes = 0
  state : s.state = .active

/-- No header of a block fits in the file, so that nothing of it is kept. -/
theorem clear_recover (hcipher : s.cipher = none) (hdata : s.dataStart = 0)
    (hsize : s.sizeBytes = s.log.length) (hshort : s.sizeBytes < kEncSegmentHeaderSize)
    (hstate : s.state = .active) : Clear s.recover.1 := by
  have hpeek : s.peekBlock 0 = none := by
    unfold peekBlock blockHeaderSize
    rw [hcipher]
    exact if_pos (Nat.lt_of_lt_of_le hshort (by decide))
  have hscan : ∀ acc, s.scanBlocks s.recoverVisit s.dataStart acc = (acc, 0) := fun acc => by
    rw [hdata]
    exact scan_of_torn (fun info hinfo => nomatch hpeek.symm.trans hinfo) _ _
  have hlog : (s.cutAt 0).log = [] ∧ (s.cutAt 0).sizeBytes = 0 := by
    unfold cutAt
    split
    · exact ⟨rfl, rfl⟩
    · have hzero : s.sizeBytes = 0 := by omega
      exact ⟨List.eq_nil_of_length_eq_zero (hsize ▸ hzero), hzero⟩
  obtain ⟨-, -, hcipher', hdata', hstate'⟩ := cutAt_fields s 0
  unfold recover
  rw [hscan]
  exact ⟨hcipher'.trans hcipher, hdata'.trans hdata, hlog.1, hlog.2, hstate'.trans hstate⟩

variable {n : Nat} {steps : List Step}

theorem Laid.openDirectory_short {g : Nexus.PartitionLog} {tail : Bytes} (h : l.Laid g bs tail)
    (hrec : l.Recognisable) (hn : n < kEncSegmentHeaderSize)
    (hkey : cfg.encryptionKey = l.cfg.encryptionKey) (salt : Salt) :
    ∃ l', openDirectory cfg (files { l with active := l.active.firstBytes n }) salt = .ok l' ∧
      Clear l'.active := by
  have hlen : (l.active.log.take n).length < kEncSegmentHeaderSize := by
    rw [List.length_take]
    omega
  -- the files are also those of a log whose active segment is in clear
  have hfiles : files { l with active := l.active.firstBytes n } =
      files { l with active := shortSegment l.active n } := by
    unfold files segments
    rw [List.map_append, List.map_append, List.map_append, List.map_append]
    rfl
  have hasc : ({ l with active := shortSegment l.active n } : PartitionLog).segments.Pairwise
      (·.baseOffset < ·.baseOffset) := by
    have hbases := List.pairwise_map.mpr h.ascending
    rw [segments, List.map_append] at hbases
    refine List.pairwise_map.mp (?_ : List.Pairwise (· < ·) _)
    rw [segments, List.map_append]
    exact hbases
  have hopen := (filesOf_files hasc).openDirectory cfg salt hasc fun s hs => by
    rw [hkey]
    rcases List.mem_append.mp hs with hs | hs
    · exact h.openFiles hrec (List.mem_append_left _ hs) _
    · obtain rfl := List.mem_singleton.mp hs
      obtain ⟨size, start, blocks, hanchored⟩ := h.anchored
      have hindex := hanchored.openFile cfg.indexIntervalBytes
      rw [h.active.indexBase] at hindex
      exact openFiles_short hlen hindex _
  exact ⟨_, hfiles ▸ hopen, clear_recover rfl rfl rfl hlen rfl⟩

/-- A batch is stored as it is. -/
theorem append_clear (h : Clear l.active) (batch : RecordBatch) (random : Random) :
    ∃ l', l.append batch random = .ok (l', (batch.rebase l.logEndOffset).lastOffset) ∧
      l'.active.log = (batch.rebase l.logEndOffset).encode := by
  have hroll : l.mustRoll = false := by
    unfold mustRoll isEmpty
    rw [h.size, h.dataStart]
    rfl
  have happend := append_eq h.state (show frameFor l.active.cipher
    (batch.rebase l.logEndOffset) random.nonce = .ok _ by rw [h.cipher]; rfl)
  unfold append rolled write
  rw [hroll, if_neg Bool.false_ne_true]
  dsimp only
  rw [happend]
  refine ⟨_, rfl, (log_maybeSync _ _).trans ?_⟩
  unfold push
  dsimp only
  rw [h.log, h.size]
  simp [writeAt]

/-- The smallest batch is shorter than an encrypted block after a header. -/
theorem not_sealsAppends (h : Clear l.active) : ¬ l.SealsAppends key := by
  intro hseals
  obtain ⟨l', hl', hlog⟩ := append_clear h { header := {} } noRandom
  obtain ⟨salt, front, frame, hheader, -, hframe, hlog'⟩ := hseals _ _ _ _ hl'
  have hlen := congrArg List.length (hlog.symm.trans hlog')
  have hfront := hheader.length_le
  rw [length_encodeSegmentHeader] at hfront
  rw [List.length_append, SegmentCipher.length_sealBlock hframe, RecordBatch.length_encode] at hlen
  change 36 = front.length + (46 + 36) at hlen
  omega

theorem Sealed.recognisable (h : l.Sealed key) : l.Recognisable := by
  intro s hs hcipher
  obtain ⟨salt, hsealed⟩ := h.segments s hs
  rw [hsealed.cipher] at hcipher
  cases hcipher

theorem firstBytes_recognisable (h : l.Sealed key) (n : Nat) :
    Recognisable { l with active := l.active.firstBytes n } := by
  intro s hs hcipher
  have hmem : s ∈ l.older ∨ s.cipher = l.active.cipher := by
    refine (List.mem_append.mp hs).imp_right fun hs => ?_
    rw [List.mem_singleton.mp hs]
    rfl
  rcases hmem with hmem | hsame
  · exact h.recognisable s (List.mem_append_left _ hmem) hcipher
  · obtain ⟨salt, hactive⟩ := h.active
    rw [hsame, hactive.cipher] at hcipher
    cases hcipher

theorem remains_firstBytes (l : PartitionLog) (hn : kEncSegmentHeaderSize ≤ n) :
    l.Remains (files { l with active := l.active.firstBytes n }) := by
  intro file hfile
  obtain ⟨s, hs, rfl⟩ := List.mem_map.mp hfile
  rcases List.mem_append.mp hs with hs | hs
  · exact l.remains_files _ (List.mem_map_of_mem (List.mem_append_left _ hs))
  · rw [List.mem_singleton.mp hs]
    exact ⟨l.active, List.mem_append_right _ List.mem_cons_self, n, hn, rfl⟩

theorem Keyed.openDirectory_short (h : l.Keyed key) (hl : l.Contains bs)
    (hn : n < kEncSegmentHeaderSize) (hkey : cfg.encryptionKey = some key) (salt : Salt) :
    ∃ l', openDirectory cfg (l.files.cutLog l.active.baseOffset n) salt = .ok l' ∧
      Clear l'.active := by
  obtain ⟨g, hm, hg⟩ := hl.models
  rw [hm.cutLog hg]
  exact (hm.toLaid hg hl.nonneg).openDirectory_short h.isSealed.recognisable hn
    (hkey.trans h.isSealed.configured.symm) salt

/-- The newest `.log` is cut to its first `n` bytes. -/
theorem Keyed.openDirectory_cut (h : l.Keyed key) (hl : l.Contains bs) (n : Nat)
    (hkey : cfg.encryptionKey = some key) (salt : Salt) :
    ∃ l', openDirectory cfg (l.files.cutLog l.active.baseOffset n) salt = .ok l' ∧
      (l'.SealsAppends key ↔ kEncSegmentHeaderSize ≤ n) := by
  have hsealed := h.isSealed
  by_cases hn : kEncSegmentHeaderSize ≤ n
  · obtain ⟨g, hm, hg⟩ := hl.models
    obtain ⟨salt', hactive⟩ := hsealed.active
    rw [hm.cutLog hg]
    obtain ⟨g', tail, hlaid, -⟩ := hm.laid hg hl.nonneg (hactive.dataStart ▸ hn)
    have hopen := hlaid.openDirectory_files (firstBytes_recognisable hsealed n)
      (hkey.trans hsealed.configured.symm) hl.orphans salt
    have hheaders := hsealed.remains (remains_firstBytes l hn)
    exact ⟨_, hopen, fun _ => hn, fun _ => (sealed_openDirectory hkey hheaders hopen).sealsAppends⟩
  · obtain ⟨l', hopen, hclear⟩ := h.openDirectory_short hl (Nat.lt_of_not_le hn) hkey salt
    exact ⟨l', hopen, fun hseals => absurd hseals (not_sealsAppends hclear),
      fun hle => absurd hle hn⟩

/-- A log that was only ever opened with a key encrypts what is appended, if no crash cuts a header.
If one leaves less than a header of the newest segment, the next batch is stored in clear. -/
theorem sealsAppends_iff (key : EncryptionKey) :
    (∀ l : PartitionLog, l.Keyed key → l.SealsAppends key) ∧
    ∀ (l : PartitionLog) (bs : List RecordBatch), l.Keyed key → l.Contains bs →
      ∀ (n : Nat) (cfg : LogConfig) (salt : Salt), cfg.encryptionKey = some key →
        ∃ l', openDirectory cfg (l.files.cutLog l.active.baseOffset n) salt = .ok l' ∧
          (l'.SealsAppends key ↔ kEncSegmentHeaderSize ≤ n) :=
  ⟨fun _ h => h.isSealed.sealsAppends,
    fun _ _ h hl n _ salt hkey => h.openDirectory_cut hl n hkey salt⟩

theorem Keyed.take {c : BatchList} (h : l.Keyed key)
    (hl : l.take random steps c = some l') : l'.Keyed key := by
  induction steps generalizing l c with
  | nil =>
    cases hl
    exact h
  | cons s rest ih =>
    unfold take at hl
    split at hl
    · split at hl
      · cases hl
      · rename_i l₁ hl₁
        split at hl
        · exact ih (h.step h.isSealed.configured hl₁) hl
        · cases hl
    · cases hl

theorem keyed_of_logAfter (hkey : cfg.encryptionKey = some key)
    (h : logAfter cfg random steps = some l) : l.Keyed key := by
  unfold logAfter at h
  split at h
  · cases h
  · rename_i l₀ hopen
    exact (Keyed.created hkey rfl hopen).take h

theorem exists_keyed_twoRecords : ∃ (l : PartitionLog) (bs : List RecordBatch),
    l.Keyed xorKey ∧ l.Contains bs ∧ l.logEndOffset = 2 := by
  have hlog : (logAfter narrowKeyed noRandom [.append twoRecords]).map (·.logEndOffset) =
      some 2 := by
    decide +kernel
  obtain ⟨l, hl, hend⟩ := Option.map_eq_some_iff.mp hlog
  obtain ⟨k, -, hholds, -⟩ := (run_of_logAfter hl).refines.kept
  exact ⟨l, _, keyed_of_logAfter rfl hl, hholds, hend⟩

/-- A batch, and a crash right after the header. -/
theorem sealsAppends_after_header : ∃ l l' : PartitionLog, l.Keyed xorKey ∧ l.logEndOffset = 2 ∧
    openDirectory narrowKeyed (l.files.cutLog l.active.baseOffset 32) noRandom.salt = .ok l' ∧
      l'.SealsAppends xorKey := by
  obtain ⟨l, bs, hkeyed, hl, hend⟩ := exists_keyed_twoRecords
  obtain ⟨l', hopen, hiff⟩ :=
    (sealsAppends_iff xorKey).2 l bs hkeyed hl 32 narrowKeyed noRandom.salt rfl
  exact ⟨l, l', hkeyed, hend, hopen, hiff.mpr (Nat.le_refl _)⟩

/-- A crash leaves 20 of the 32 bytes of the header. The key is configured, and the next batch is in
the file as it is. -/
theorem append_in_clear : ∃ (l l' l₂ : PartitionLog) (last : Int), l.Keyed xorKey ∧
    openDirectory narrowKeyed (l.files.cutLog l.active.baseOffset 20) noRandom.salt = .ok l' ∧
      l'.append twoRecords noRandom = .ok (l₂, last) ∧
      l₂.active.log = (twoRecords.rebase l'.logEndOffset).encode ∧ ¬ l'.SealsAppends xorKey := by
  obtain ⟨l, bs, hkeyed, hl, -⟩ := exists_keyed_twoRecords
  obtain ⟨l', hopen, hclear⟩ := hkeyed.openDirectory_short hl
    (show 20 < kEncSegmentHeaderSize by decide)
    (show narrowKeyed.encryptionKey = some xorKey from rfl) noRandom.salt
  obtain ⟨l₂, happend, hlog⟩ := append_clear hclear twoRecords noRandom
  exact ⟨l, l', l₂, _, hkeyed, hopen, happend, hlog, not_sealsAppends hclear⟩

end PartitionLog

end Nexus.Raw
