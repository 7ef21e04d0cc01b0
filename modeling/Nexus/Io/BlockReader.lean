import Nexus.Common
import Nexus.Lib.Run

/-!
# Reading a file through a cache of blocks

`io/block_reader.cpp` over a file that others append to. A block of the cache is the bytes that
were in the file when it was loaded; its length is the source's `valid`. The counters of hits and
misses are left out.

* `Adds`: a call only adds blocks to the cache that it has just loaded.
* `Holds`: each block of the cache is a first part of the file's block, which may have grown.
* `Covers`: no block that the read touches is in the cache with too few of its bytes.
-/

namespace Nexus

open Lib List

/-- What a call finds on the disk: the bytes of the file, and which accesses fail. -/
structure FileState where
  bytes : List UInt8
  sizeFails : Bool := false
  loadFails : Nat → Bool := fun _ => false

structure BlockReader where
  blockSize : Nat
  cacheBlocks : Nat
  readaheadBlocks : Nat
  fileSize : Nat
  /-- The cached blocks with their indices, the most recent first. -/
  lru : List (Nat × List UInt8) := []
  nextSequential : Nat := 0
  haveSeq : Bool := false

/-- `File::size`. -/
def FileState.size (d : FileState) : Expected Nat :=
  if d.sizeFails then makeError .ioError "fstat" else .ok d.bytes.length

/-- The bytes that the file has in a block. -/
def fileBlock (bytes : List UInt8) (blockSize index : Nat) : List UInt8 :=
  (bytes.drop (index * blockSize)).take blockSize

namespace BlockReader

variable (r : BlockReader) (d : FileState)

def isPowerOfTwo (value : Nat) : Bool := value ≠ 0 ∧ value &&& (value - 1) = 0

/-- `File::direct_alignment`. -/
def directAlignment : Nat := 4096

def create (blockSize cacheBlocks readaheadBlocks : Nat) : Expected BlockReader :=
  let bsize := if blockSize = 0 then directAlignment else blockSize
  if ¬ isPowerOfTwo bsize then makeError .invalidArgument "block_size no es potencia de dos"
  else d.size.map fun fileSize => { blockSize := bsize, cacheBlocks, readaheadBlocks, fileSize }

def loadBlock (index : Nat) : Expected (List UInt8) :=
  if d.loadFails index then makeError .ioError "pread"
  else .ok (fileBlock d.bytes r.blockSize index)

def insert (index : Nat) (block : List UInt8) : BlockReader :=
  if r.cacheBlocks = 0 then r
  else
    let lru := if r.cacheBlocks ≤ r.lru.length then r.lru.dropLast else r.lru
    { r with lru := (index, block) :: lru }

def fetchBlock (index : Nat) : Expected (List UInt8) × BlockReader :=
  match r.lru.lookup index with
  | some block => (.ok block, { r with lru := (index, block) :: r.lru.filter (·.1 ≠ index) })
  | none =>
    match r.loadBlock d index with
    | .error e => (.error e, r)
    | .ok block =>
      if r.cacheBlocks = 0 then
        (makeError .unsupported "BlockReader sin caché no soporta fetch_block", r)
      else (.ok block, r.insert index block)

def prefetchLoop (lastBlock : Nat) : Nat → Nat → BlockReader → BlockReader
  | 0, _, r => r
  | n + 1, index, r =>
    if lastBlock < index then r
    else if (r.lru.lookup index).isSome then prefetchLoop lastBlock n (index + 1) r
    else
      match r.loadBlock d index with
      | .error _ => r
      | .ok block => prefetchLoop lastBlock n (index + 1) (r.insert index block)

def prefetch (first count : Nat) : BlockReader :=
  if r.cacheBlocks = 0 then r
  else prefetchLoop d (if r.fileSize = 0 then 0 else (r.fileSize - 1) / r.blockSize) count first r

/-- The block that `read_at` copies from. -/
def serve (index : Nat) : Expected (List UInt8) × BlockReader :=
  if r.cacheBlocks = 0 then (r.loadBlock d index, r) else r.fetchBlock d index

/-- The bytes that `read_at` copies from a block. -/
def copied (blockSize offset stop index : Nat) (block : List UInt8) : List UInt8 :=
  let blockStart := index * blockSize
  let copyFrom := max offset blockStart
  let copyTo := min stop (blockStart + block.length)
  if copyTo ≤ copyFrom then [] else (block.drop (copyFrom - blockStart)).take (copyTo - copyFrom)

def readLoop (offset stop : Nat) :
    Nat → Nat → BlockReader → List UInt8 → Expected (List UInt8) × BlockReader
  | 0, _, r, dst => (.ok dst, r)
  | n + 1, index, r, dst =>
    match r.serve d index with
    | (.error e, r) => (.error e, r)
    | (.ok block, r) =>
      readLoop offset stop n (index + 1) r (dst ++ copied r.blockSize offset stop index block)

/-- An access that continues the last one loads the blocks that come next. -/
def readahead (firstBlock lastBlock : Nat) : BlockReader :=
  if r.haveSeq ∧ firstBlock = r.nextSequential ∧ 0 < r.readaheadBlocks
  then r.prefetch d (lastBlock + 1) r.readaheadBlocks else r

/-- What the call knows of the size of the file: the sum is a 64-bit one. -/
def refreshSize (len offset : Nat) : Expected BlockReader :=
  if r.fileSize < (offset + len) % 2 ^ 64 then
    d.size.map fun fileSize => { r with fileSize }
  else .ok r

/-- The part of `read_at` after the end of the file is known. -/
def readKnown (len offset : Nat) : Expected (List UInt8) × BlockReader :=
  if r.fileSize ≤ offset then (.ok [], r)
  else
    let stop := min ((offset + len) % 2 ^ 64) r.fileSize
    let firstBlock := offset / r.blockSize
    let lastBlock := (stop - 1) / r.blockSize
    let r := r.readahead d firstBlock lastBlock
    match readLoop d offset stop (lastBlock + 1 - firstBlock) firstBlock r [] with
    | (.error e, r) => (.error e, r)
    | (.ok dst, r) => (.ok dst, { r with nextSequential := lastBlock + 1, haveSeq := true })

/-- `read_at` of `len` bytes, with the bytes that it puts into `dst`. -/
def readAt (len offset : Nat) : Expected (List UInt8) × BlockReader :=
  if len = 0 then (.ok [], r)
  else
    match r.refreshSize d len offset with
    | .error e => (.error e, r)
    | .ok r => r.readKnown d len offset

/-! ## What a call does to the cache -/

/-- The cache of `r'` has blocks of the cache of `r`, and blocks that the file has now. -/
structure Adds (r r' : BlockReader) : Prop where
  blockSize : r'.blockSize = r.blockSize
  fileSize : r'.fileSize = r.fileSize
  lru : ∀ e ∈ r'.lru, e ∈ r.lru ∨ e.2 = fileBlock d.bytes r.blockSize e.1

variable {r d} {r' r'' : BlockReader} {index len offset stop : Nat} {block bytes : List UInt8}
  {s : Shared}

theorem Adds.refl : Adds d r r := ⟨rfl, rfl, fun _ h => .inl h⟩

theorem Adds.trans (h : Adds d r r') (h' : Adds d r' r'') : Adds d r r'' := by
  obtain ⟨hb, hf, hl⟩ := h
  obtain ⟨hb', hf', hl'⟩ := h'
  exact ⟨hb'.trans hb, hf'.trans hf, by grind⟩

theorem adds_insert : Adds d r (r.insert index (fileBlock d.bytes r.blockSize index)) := by
  unfold insert
  constructor <;> grind [dropLast_subset]

theorem loadBlock_eq_ok (h : r.loadBlock d index = .ok block) :
    block = fileBlock d.bytes r.blockSize index := by
  unfold loadBlock makeError at h
  grind

theorem adds_prefetchLoop (lastBlock n : Nat) :
    Adds d r (prefetchLoop d lastBlock n index r) := by
  induction n generalizing index r with
  | zero => exact .refl
  | succ n ih =>
    unfold prefetchLoop
    split
    · exact .refl
    split
    · exact ih
    split
    · exact .refl
    · rename_i hload
      obtain rfl := loadBlock_eq_ok hload
      exact adds_insert.trans ih

theorem adds_prefetch (first count : Nat) : Adds d r (r.prefetch d first count) := by
  unfold prefetch
  split
  · exact .refl
  · exact adds_prefetchLoop _ _

theorem adds_readahead (firstBlock lastBlock : Nat) :
    Adds d r (r.readahead d firstBlock lastBlock) := by
  unfold readahead
  split
  · exact adds_prefetch _ _
  · exact .refl

theorem mem_of_lookup (h : r.lru.lookup index = some block) : (index, block) ∈ r.lru := by
  obtain ⟨l₁, l₂, hl, -⟩ := lookup_eq_some_iff.mp h
  simp [hl]

theorem adds_serve : Adds d r (r.serve d index).2 := by
  unfold serve fetchBlock
  split
  · exact .refl
  split
  · rename_i hlookup
    have := mem_of_lookup hlookup
    exact ⟨rfl, rfl, by grind⟩
  split
  · exact .refl
  · rename_i hload
    obtain rfl := loadBlock_eq_ok hload
    exact adds_insert

/-- The block that is served comes from the cache, or is the block of the file. -/
theorem serve_eq_ok (h : (r.serve d index).1 = .ok block) :
    (index, block) ∈ r.lru ∨ block = fileBlock d.bytes r.blockSize index := by
  unfold serve fetchBlock at h
  split at h
  · exact .inr (loadBlock_eq_ok h)
  split at h
  · rename_i hlookup
    cases h
    exact .inl (mem_of_lookup hlookup)
  split at h
  · cases h
  · rename_i hload
    cases h
    exact .inr (loadBlock_eq_ok hload)

theorem adds_readLoop (offset stop n : Nat) (dst : List UInt8) :
    Adds d r (readLoop d offset stop n index r dst).2 := by
  induction n generalizing index r dst with
  | zero => exact .refl
  | succ n ih =>
    have hserve : Adds d r (r.serve d index).2 := adds_serve
    unfold readLoop
    split <;> rename_i heq <;> rw [heq] at hserve
    · exact hserve
    · exact hserve.trans (ih _)

theorem Adds.marked (h : Adds d r r') (nextSequential : Nat) (haveSeq : Bool) :
    Adds d r { r' with nextSequential, haveSeq } :=
  ⟨h.blockSize, h.fileSize, h.lru⟩

theorem adds_readKnown (len offset : Nat) : Adds d r (r.readKnown d len offset).2 := by
  unfold readKnown
  split
  · exact .refl
  · dsimp only
    split <;> rename_i heq <;> obtain rfl := congrArg Prod.snd heq
    · exact (adds_readahead _ _).trans (adds_readLoop _ _ _ _)
    · exact ((adds_readahead _ _).trans (adds_readLoop _ _ _ _)).marked _ _

/-! ## What a read copies -/

/-- Each block of the cache is a first part of the block of the file. -/
def Holds (r : BlockReader) (bytes : List UInt8) : Prop :=
  ∀ e ∈ r.lru, e.2 <+: fileBlock bytes r.blockSize e.1

/-- The block has the bytes of the file up to `stop`. -/
def Reaches (blockSize stop index : Nat) (block : List UInt8) : Prop :=
  min stop ((index + 1) * blockSize) ≤ index * blockSize + block.length

/-- No block of the cache that the read from `offset` to `stop` touches is too short for it. -/
def Covers (r : BlockReader) (offset stop : Nat) : Prop :=
  ∀ e ∈ r.lru, offset / r.blockSize ≤ e.1 → e.1 ≤ (stop - 1) / r.blockSize →
    Reaches r.blockSize stop e.1 e.2

theorem Adds.holds (h : Adds d r r') (hr : r.Holds d.bytes) : r'.Holds d.bytes := by
  intro e he
  rw [h.blockSize]
  rcases h.lru e he with hmem | heq
  · exact hr e hmem
  · exact heq ▸ prefix_refl _

theorem reaches_block (hstop : stop ≤ d.bytes.length) :
    Reaches r.blockSize stop index (fileBlock d.bytes r.blockSize index) := by
  simp only [Reaches, fileBlock, length_take, length_drop, Nat.add_mul]
  omega

theorem Adds.covers {offset : Nat} (h : Adds d r r') (hr : r.Covers offset stop)
    (hstop : stop ≤ d.bytes.length) : r'.Covers offset stop := by
  intro e he
  rw [h.blockSize]
  rcases h.lru e he with hmem | heq
  · exact hr e hmem
  · intro _ _
    rw [heq]
    exact reaches_block hstop

/-- From a block that reaches far enough the bytes of the file are copied. -/
theorem copied_eq {blockSize offset : Nat} (hblock : block <+: fileBlock d.bytes blockSize index)
    (hreach : Reaches blockSize stop index block) :
    copied blockSize offset stop index block =
      (d.bytes.drop (max offset (index * blockSize))).take
        (min stop ((index + 1) * blockSize) - max offset (index * blockSize)) := by
  have hlen : block.length ≤ blockSize :=
    Nat.le_trans hblock.length_le (by simp [fileBlock, Nat.min_le_left])
  have htake : block = (d.bytes.drop (index * blockSize)).take block.length := by
    have := prefix_iff_eq_take.mp hblock
    rwa [fileBlock, take_take, Nat.min_eq_left hlen] at this
  unfold Reaches at hreach
  have hto : min stop (index * blockSize + block.length) = min stop ((index + 1) * blockSize) := by
    rw [Nat.add_mul] at hreach ⊢
    omega
  simp only [copied, hto]
  split
  · rename_i hle
    rw [Nat.sub_eq_zero_of_le hle, take_zero]
  · rw [htake, drop_take, drop_drop, take_take]
    congr 1
    · omega
    · congr 1
      omega

theorem take_append_take {l : List UInt8} {start mid : Nat} (h : start ≤ mid) :
    (l.drop start).take (min stop mid - start) ++ (l.drop mid).take (stop - mid) =
      (l.drop start).take (stop - start) := by
  by_cases hstop : stop ≤ mid
  · simp [Nat.min_eq_left hstop, Nat.sub_eq_zero_of_le hstop]
  · have hsum : stop - start = (mid - start) + (stop - mid) := by omega
    rw [Nat.min_eq_right (by omega), hsum, take_add, drop_drop, Nat.add_sub_cancel' h]

/-- The loop of `read_at` over the blocks from `index` on, each of which reaches far enough. -/
theorem readLoop_eq {offset n : Nat} {dst bytes : List UInt8} (hbs : 0 < r.blockSize)
    (hstop : stop ≤ d.bytes.length) (hfirst : offset / r.blockSize ≤ index)
    (hlast : index + n = (stop - 1) / r.blockSize + 1) (hr : r.Holds d.bytes)
    (hc : r.Covers offset stop) (h : readLoop d offset stop n index r dst = (.ok bytes, r')) :
    bytes = dst ++ (d.bytes.drop (max offset (index * r.blockSize))).take
      (stop - max offset (index * r.blockSize)) := by
  induction n generalizing index r dst with
  | zero =>
    have hpast : stop - 1 < index * r.blockSize :=
      (Nat.div_lt_iff_lt_mul hbs).mp (by omega)
    cases h
    rw [Nat.sub_eq_zero_of_le (by omega), take_zero, append_nil]
  | succ n ih =>
    unfold readLoop at h
    split at h
    · cases h
    · rename_i block r₁ hserve
      have hadds : Adds d r r₁ := by
        have hstep : Adds d r (r.serve d index).2 := adds_serve
        rwa [hserve] at hstep
      have hblock := serve_eq_ok (congrArg Prod.fst hserve)
      have hprefix : block <+: fileBlock d.bytes r.blockSize index := by
        rcases hblock with hmem | rfl
        · exact hr _ hmem
        · exact prefix_refl _
      have hreach : Reaches r.blockSize stop index block := by
        rcases hblock with hmem | rfl
        · exact hc _ hmem hfirst (by omega)
        · exact reaches_block hstop
      have hnext : offset < (index + 1) * r.blockSize :=
        (Nat.div_lt_iff_lt_mul hbs).mp (by omega)
      have hmax : max offset ((index + 1) * r.blockSize) = (index + 1) * r.blockSize := by omega
      have hle : max offset (index * r.blockSize) ≤ (index + 1) * r.blockSize := by
        rw [Nat.add_mul] at hnext ⊢
        omega
      have hsize := hadds.blockSize
      have hrest := ih (by omega) (by rw [hsize]; omega) (by rw [hsize]; omega) (hadds.holds hr)
        (hadds.covers hc hstop) h
      rw [hrest, hsize, copied_eq hprefix hreach, hmax, append_assoc, take_append_take hle]

/-- What is known of the size after it was looked at. -/
theorem refreshSize_eq_ok (h : r.refreshSize d len offset = .ok r') :
    ∃ fileSize, r' = { r with fileSize } ∧
      (fileSize = d.bytes.length ∨ fileSize = r.fileSize ∧ (offset + len) % 2 ^ 64 ≤ fileSize) := by
  unfold refreshSize at h
  split at h
  · obtain ⟨n, hn, rfl⟩ := exists_of_map_eq_ok h
    unfold FileState.size makeError at hn
    exact ⟨n, rfl, .inl (by grind)⟩
  · cases h
    exact ⟨r.fileSize, rfl, .inr ⟨rfl, by omega⟩⟩

theorem readKnown_eq_ok (hbs : 0 < r.blockSize)
    (hsize : r.fileSize ≤ d.bytes.length) (hr : r.Holds d.bytes) (hoff : offset < r.fileSize)
    (hstop : min ((offset + len) % 2 ^ 64) r.fileSize = min (offset + len) d.bytes.length)
    (hlen : 0 < len) (hc : r.Covers offset (min (offset + len) d.bytes.length))
    (h : r.readKnown d len offset = (.ok bytes, r')) :
    bytes = (d.bytes.drop offset).take len := by
  unfold readKnown at h
  rw [if_neg (by omega), hstop] at h
  dsimp only at h
  generalize hstop' : min (offset + len) d.bytes.length = stop at h hc
  have hadds : Adds d r (r.readahead d (offset / r.blockSize) ((stop - 1) / r.blockSize)) :=
    adds_readahead _ _
  have hfirst : offset / r.blockSize ≤ (stop - 1) / r.blockSize :=
    Nat.div_le_div_right (by omega)
  split at h
  · cases h
  · rename_i dst r₁ hloop
    obtain ⟨⟨⟩, -⟩ := Prod.mk.injEq .. ▸ h
    have hsame := hadds.blockSize
    have := readLoop_eq (by omega) (by omega) (Nat.le_of_eq (by rw [hsame])) (by rw [hsame]; omega)
      (hadds.holds hr) (hadds.covers hc (by omega)) hloop
    have hmax : max offset (offset / r.blockSize * r.blockSize) = offset :=
      Nat.max_eq_left (Nat.div_mul_le_self _ _)
    rw [this, hsame, hmax, nil_append, ← hstop', take_eq_take_iff, length_drop]
    omega

/-- A read that returns has copied the bytes of the file, if no cached block is too short. -/
theorem readAt_eq_ok (hbs : 0 < r.blockSize)
    (hsize : r.fileSize ≤ d.bytes.length) (hr : r.Holds d.bytes) (hoff : offset < 2 ^ 64)
    (hlen : len < 2 ^ 63) (hfile : d.bytes.length < 2 ^ 63)
    (hc : r.Covers offset (min (offset + len) d.bytes.length))
    (h : r.readAt d len offset = (.ok bytes, r')) :
    bytes = (d.bytes.drop offset).take len := by
  unfold readAt at h
  split at h
  · rename_i hzero
    cases h
    simp [hzero]
  split at h
  · cases h
  · rename_i r₁ hrefresh
    obtain ⟨fileSize, rfl, hknown⟩ := refreshSize_eq_ok hrefresh
    by_cases hend : fileSize ≤ offset
    · -- The end of the file, also where the sum of offset and length wraps around.
      rw [readKnown, if_pos hend] at h
      cases h
      rw [drop_eq_nil_of_le (by omega), take_nil]
    · exact readKnown_eq_ok (r := { r with fileSize }) hbs (by dsimp only; omega) hr
        (by dsimp only; omega) (by dsimp only; omega) (by omega) hc h

/-! ## Reads between appends -/

/-- A file with its reader. -/
structure Shared where
  bytes : List UInt8
  reader : BlockReader

inductive Event
  | append (data : List UInt8)
  | readAt (len offset : Nat) (sizeFails : Bool) (loadFails : Nat → Bool)

def Shared.step (s : Shared) : Event → Shared
  | .append data => { s with bytes := s.bytes ++ data }
  | .readAt len offset sizeFails loadFails =>
    { s with reader := (s.reader.readAt { bytes := s.bytes, sizeFails, loadFails } len offset).2 }

/-- What the reader keeps over appends and reads. -/
structure Valid (s : Shared) : Prop where
  blockSize : 0 < s.reader.blockSize
  fileSize : s.reader.fileSize ≤ s.bytes.length
  holds : s.reader.Holds s.bytes

theorem Valid.readAt (h : Valid s) {d : FileState} (hd : d.bytes = s.bytes)
    (len offset : Nat) : Valid { s with reader := (s.reader.readAt d len offset).2 } := by
  unfold BlockReader.readAt
  split
  · exact h
  split
  · exact h
  · rename_i r₁ hrefresh
    obtain ⟨fileSize, rfl, hknown⟩ := refreshSize_eq_ok hrefresh
    obtain ⟨hbs, hsize, hr⟩ := h
    rw [hd] at hknown
    have hadds := adds_readKnown (r := { s.reader with fileSize }) (d := d) len offset
    refine ⟨?_, ?_, ?_⟩
    · rwa [hadds.blockSize]
    · rw [hadds.fileSize]
      dsimp only
      omega
    · rw [← hd] at hr ⊢
      exact hadds.holds hr

theorem Valid.step (h : Valid s) (e : Event) : Valid (s.step e) := by
  cases e with
  | append data =>
    refine ⟨h.blockSize, ?_, fun e he => (h.holds e he).trans ?_⟩
    · have := h.fileSize
      simp only [Shared.step, length_append]
      omega
    · simp only [fileBlock, Shared.step, drop_append, take_append]
      exact prefix_append _ _
  | readAt len offset sizeFails loadFails => exact h.readAt rfl len offset

/-- A reader that was just created, after the events. -/
def Reached (blockSize cacheBlocks readaheadBlocks : Nat) (bytes : List UInt8) (s : Shared) :
    Prop :=
  ∃ reader es, create { bytes } blockSize cacheBlocks readaheadBlocks = .ok reader ∧
    s = run Shared.step { bytes, reader } es

theorem Reached.valid {blockSize cacheBlocks readaheadBlocks : Nat} {bytes : List UInt8}
    (h : Reached blockSize cacheBlocks readaheadBlocks bytes s) : Valid s := by
  obtain ⟨reader, es, hcreate, rfl⟩ := h
  refine run_invariant (P := fun _ _ => True) (fun s e h _ => h.step e) ?_
    (along_of_forall (fun _ _ => trivial) _ _)
  unfold create at hcreate
  dsimp only at hcreate
  generalize (if blockSize = 0 then directAlignment else blockSize) = bsize at hcreate
  split at hcreate
  · cases hcreate
  · rename_i hpow
    cases hcreate
    simp only [isPowerOfTwo, ne_eq, Bool.decide_and, Bool.and_eq_true, decide_eq_true_eq,
      Decidable.not_not] at hpow
    exact ⟨Nat.pos_of_ne_zero hpow.1, Nat.le_refl _, by simp [Holds]⟩

/-- After any appends and reads, a read that returns has copied the bytes of the file from the
offset on, if each block of the cache that it touches has the bytes that the file has there. -/
theorem readAt_eq_file {blockSize cacheBlocks readaheadBlocks : Nat} {bytes : List UInt8}
    {s : Shared} (hs : Reached blockSize cacheBlocks readaheadBlocks bytes s)
    (sizeFails : Bool) (loadFails : Nat → Bool) {len offset : Nat} (hlen : len < 2 ^ 63)
    (hoff : offset < 2 ^ 64) (hfile : s.bytes.length < 2 ^ 63)
    (hc : s.reader.Covers offset (min (offset + len) s.bytes.length)) {dst : List UInt8}
    (h : (s.reader.readAt { bytes := s.bytes, sizeFails, loadFails } len offset).1 = .ok dst) :
    dst = (s.bytes.drop offset).take len :=
  have hv := hs.valid
  readAt_eq_ok (d := { bytes := s.bytes, sizeFails, loadFails }) hv.blockSize hv.fileSize hv.holds
    hoff hlen hfile hc (Prod.ext h rfl)

/-- A block that was full when it was loaded is read again after the file has grown. -/
theorem readAt_eq_file_grown : ∃ s dst, Reached 2 1 1 [1, 2] s ∧ s.bytes = [1, 2, 3] ∧
    (s.reader.readAt { bytes := s.bytes } 4 0).1 = .ok dst ∧ dst = (s.bytes.drop 0).take 4 := by
  let s : Shared := run Shared.step
    ⟨[1, 2], { blockSize := 2, cacheBlocks := 1, readaheadBlocks := 1, fileSize := 2 }⟩
    [.readAt 2 0 false fun _ => false, .append [3]]
  have hs : Reached 2 1 1 [1, 2] s := ⟨_, _, rfl, rfl⟩
  have hc : s.reader.Covers 0 (min (0 + 4) s.bytes.length) := by
    intro e he _ _
    obtain rfl : e = (0, [1, 2]) := List.mem_singleton.mp he
    exact Nat.le_refl 2
  have hread : (s.reader.readAt { bytes := s.bytes } 4 0).1 = .ok [1, 2, 3] := by decide +kernel
  exact ⟨s, [1, 2, 3], hs, rfl, hread, readAt_eq_file hs false (fun _ => false) (by decide)
    (by decide) (by decide) hc hread⟩

/-- A block that was loaded with two of its four bytes stays so in the cache: after two more
bytes, and two of the next block, a read of the six gives four, two of them in the wrong place. -/
theorem readAt_skips : ∃ s, Reached 4 2 0 [1, 2] s ∧ s.bytes = [1, 2, 3, 4, 5, 6] ∧
    (s.reader.readAt { bytes := s.bytes } 6 0).1 = .ok [1, 2, 5, 6] :=
  ⟨_, ⟨_, [.readAt 2 0 false fun _ => false, .append [3, 4, 5, 6]], rfl, rfl⟩, rfl, rfl⟩

end BlockReader

end Nexus
