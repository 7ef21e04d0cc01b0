import Nexus.Storage.LogRuns

/-!
# A log with a key and one without

The same calls on two logs of files, one encrypted and one in clear, whatever their segment sizes
(`Lockstep`). What a call answers is a function of the list of batches and of where the log starts
(`PartitionLog.Refines.answer`), and neither the framing of the blocks nor the place where segments
end is in it, but for one thing: `truncate_prefix_to` drops whole segments, so that the two logs may
start at different offsets afterwards. An offset between the two starts is refused by one log and
served by the other; all other calls answer the same.
-/

namespace Nexus.Raw

open Lib

/-- What the caller of a step is told: the last offset, if the step is an `append`. -/
def Step.answer (cfg : LogConfig) (random : Random) (l : PartitionLog) :
    Step → Expected (Option Int)
  | .append batch => (l.append batch random).map fun res => some res.2
  | .truncateTo offset => (l.truncateTo offset).map fun _ => none
  | .truncatePrefixTo offset => (l.truncatePrefixTo offset).map fun _ => none
  | .resetTo offset => (l.resetTo offset random.salt).map fun _ => none
  | .reopen => (PartitionLog.openDirectory cfg l.files random.salt).map fun _ => none

/-- The answer of a log that has the batches of the list and starts at `start`. -/
def BatchList.answer (c : BatchList) (start : Int) : Step → Expected (Option Int)
  | .append batch => .ok (some (batch.rebase c.endOffset).lastOffset)
  | .truncateTo offset =>
    if offset < start then makeError .outOfRange "truncate_to por debajo de log_start_offset"
    else .ok none
  | .truncatePrefixTo offset =>
    if offset > c.endOffset then
      makeError .outOfRange "truncate_prefix_to por encima de log_end_offset"
    else .ok none
  | .resetTo offset =>
    if offset < 0 then makeError .invalidArgument "reset_to: offset negativo" else .ok none
  | .reopen => .ok none

namespace PartitionLog

variable {l l' : PartitionLog} {c : BatchList} {cfg cfg' : LogConfig} {random random' : Random}

theorem Refines.start_le_end (h : l.Refines c) : l.logStartOffset ≤ c.endOffset := by
  obtain ⟨k, -, hholds, -⟩ := h.kept
  rw [← h.logEnd, hholds.logEnd]
  exact hholds.chain.le_endOf

theorem Refines.boundary_le (h : l.Refines c) {offset : Int} (hb : c.IsBoundary offset) :
    offset ≤ c.endOffset := by
  obtain ⟨j, hj, rfl, -⟩ := BatchList.exists_take_of_isBoundary h.chain hb
  have hle := h.chain.endOf_take_le (k := c.batches.length) hj
  rwa [List.take_length] at hle

/-- The list and the start of the log decide what a step answers. -/
theorem Refines.answer (h : l.Refines c) (hbound : l.logEndOffset < 2 ^ 63)
    (hrec : l.Recognisable) {s : Step} (hallows : c.Allows s)
    (hkey : cfg.encryptionKey = l.cfg.encryptionKey) :
    s.answer cfg random l = c.answer l.logStartOffset s := by
  have hend := h.logEnd
  have hstart := h.start_le_end
  have hok := fun hs => @Refines.exec_ok l c cfg random h hbound hrec s hs hkey
  cases s with
  | append batch =>
    obtain ⟨k, -, hholds, -⟩ := h.kept
    obtain ⟨l₁, hl₁, -⟩ := hholds.append hbound hallows.1 hallows.2 random
    rw [Step.answer, hl₁, hend]
    rfl
  | truncateTo offset =>
    have hle := h.boundary_le hallows
    rw [BatchList.answer, Step.answer]
    split
    · rename_i hlt
      rw [PartitionLog.truncateTo, if_neg (by omega), if_neg (by omega), if_pos hlt]
      rfl
    · rename_i hge
      obtain ⟨l₁, hl₁⟩ := hok hallows (Int.not_lt.mp hge)
      rw [show l.truncateTo offset = .ok l₁ from hl₁]
      rfl
  | truncatePrefixTo offset =>
    rw [BatchList.answer, Step.answer]
    split
    · rename_i hgt
      rw [PartitionLog.truncatePrefixTo, if_neg (by omega), if_pos (by omega)]
      rfl
    · rename_i hle
      obtain ⟨l₁, hl₁⟩ := hok hallows (show offset ≤ l.logEndOffset by omega)
      rw [show l.truncatePrefixTo offset = .ok l₁ from hl₁]
      rfl
  | resetTo offset =>
    rw [BatchList.answer, Step.answer]
    split
    · rename_i hlt
      rw [PartitionLog.resetTo, if_pos hlt]
      rfl
    · rename_i hge
      obtain ⟨l₁, hl₁⟩ := hok hallows (Int.not_lt.mp hge)
      rw [show l.resetTo offset random.salt = .ok l₁ from hl₁]
      rfl
  | reopen =>
    obtain ⟨l₁, hl₁⟩ := hok hallows trivial
    rw [Step.answer, show openDirectory cfg l.files random.salt = .ok l₁ from hl₁]
    rfl

/-- The log is in the ranges of its formats: offsets are `int64`, no segment spans `2 ^ 32` offsets
or bytes, and no plain one starts with the magic of the encrypted ones. -/
structure InFormat (l : PartitionLog) : Prop where
  offsets : l.logEndOffset < 2 ^ 63
  narrow : l.Narrow
  recognisable : l.Recognisable

instance : DecidablePred InFormat := fun l =>
  decidable_of_iff (l.logEndOffset < 2 ^ 63 ∧ l.Narrow ∧ l.Recognisable)
    ⟨fun h => ⟨h.1, h.2.1, h.2.2⟩, fun h => ⟨h.1, h.2, h.3⟩⟩

/-- The offset is below the start of both logs or of none. -/
def SameSide (l l' : PartitionLog) (offset : Int) : Prop :=
  offset < l.logStartOffset ↔ offset < l'.logStartOffset

instance (l l' : PartitionLog) (offset : Int) : Decidable (SameSide l l' offset) :=
  inferInstanceAs (Decidable (_ ↔ _))

end PartitionLog

/-- Only `truncate_to` compares its offset with the start of the log. -/
def Step.SameSide (l l' : PartitionLog) : Step → Prop
  | .truncateTo offset => PartitionLog.SameSide l l' offset
  | _ => True

instance (l l' : PartitionLog) : DecidablePred (Step.SameSide l l')
  | .append _ => inferInstanceAs (Decidable True)
  | .truncateTo offset => inferInstanceAs (Decidable (PartitionLog.SameSide l l' offset))
  | .truncatePrefixTo _ => inferInstanceAs (Decidable True)
  | .resetTo _ => inferInstanceAs (Decidable True)
  | .reopen => inferInstanceAs (Decidable True)

/-- An encrypted log and a plain one after the same calls, with the list of their batches. A call
that is refused is not in it: it leaves its log as it is. -/
inductive Lockstep : BatchList → PartitionLog → PartitionLog → Prop where
  | created {cfg cfg' : LogConfig} {salt salt' : Salt} {l l' : PartitionLog} :
      cfg.encryptionKey.isSome → cfg'.encryptionKey.isNone →
      PartitionLog.openDirectory cfg {} salt = .ok l →
      PartitionLog.openDirectory cfg' {} salt' = .ok l' → Lockstep {} l l'
  | step {c : BatchList} {l l' l₁ l₁' : PartitionLog} {s : Step} {cfg cfg' : LogConfig}
      {random random' : Random} :
      Lockstep c l l' → c.Allows s → s.SameSide l l' →
      cfg.encryptionKey = l.cfg.encryptionKey → cfg'.encryptionKey = l'.cfg.encryptionKey →
      s.exec cfg random l = .ok l₁ → s.exec cfg' random' l' = .ok l₁' →
      l₁.InFormat → l₁'.InFormat → Lockstep (c.step s) l₁ l₁'

/-- What holds of each of the two logs. -/
structure Side (c : BatchList) (l : PartitionLog) : Prop where
  refines : l.Refines c
  offsets : l.logEndOffset < 2 ^ 63
  recognisable : l.Recognisable

variable {l l' : PartitionLog} {c : BatchList} {cfg cfg' : LogConfig} {random random' : Random}
  {steps : List Step} {s : Step}

theorem side_created {salt : Salt} (hl : PartitionLog.openDirectory cfg {} salt = .ok l) :
    Side {} l := by
  obtain ⟨l₂, hl₂, hholds, hstart, -⟩ := PartitionLog.holds_openDirectory_nil cfg salt
  obtain rfl := Except.ok.inj (hl.symm.trans hl₂)
  exact ⟨⟨trivial, ⟨0, Nat.le_refl _, hholds.toContains, hstart⟩, Int.le_of_eq hstart⟩,
    Int.lt_trans hholds.bound (by decide), hholds.recognisable⟩

theorem Side.step (h : Side c l) (hallows : c.Allows s)
    (hkey : cfg.encryptionKey = l.cfg.encryptionKey) (hl : s.exec cfg random l = .ok l')
    (hformat : l'.InFormat) : Side (c.step s) l' :=
  ⟨h.refines.step h.offsets h.recognisable hallows hkey hl hformat.narrow, hformat.offsets,
    hformat.recognisable⟩

theorem Lockstep.sides (h : Lockstep c l l') : Side c l ∧ Side c l' := by
  induction h with
  | created _ _ hl hl' => exact ⟨side_created hl, side_created hl'⟩
  | step _ hallows _ hkey hkey' hl hl' hformat hformat' ih =>
    exact ⟨ih.1.step hallows hkey hl hformat, ih.2.step hallows hkey' hl' hformat'⟩

/-- A read answers with the batches of the list, unless it starts before the log does. -/
theorem Side.read (h : Side c l) (offset : Int) (m : Nat) :
    l.read offset m =
      if offset < l.logStartOffset then
        makeError .outOfRange "offset por debajo de log_start_offset"
      else
        .ok { batches := encodeAll (takeRun m (c.batches.dropWhile (below offset)))
              nextOffset := endOf offset (takeRun m (c.batches.dropWhile (below offset))) } := by
  split
  · rename_i hlt
    rw [PartitionLog.read, if_pos hlt]
  · rename_i hge
    exact h.refines.read (Int.not_lt.mp hge) m

theorem answer_eq (h : s.SameSide l l') :
    c.answer l.logStartOffset s = c.answer l'.logStartOffset s := by
  cases s with
  | truncateTo offset => rw [BatchList.answer, BatchList.answer, if_congr h rfl rfl]
  | _ => rfl

/-- After the same calls both logs end at the same offset, and reads and further calls answer the
same, if their offsets are not between the two starts. -/
theorem encryption_transparent (h : Lockstep c l l') :
    l.logEndOffset = l'.logEndOffset ∧
    (∀ (offset : Int) (m : Nat), PartitionLog.SameSide l l' offset →
      l.read offset m = l'.read offset m) ∧
    ∀ (s : Step) (cfg cfg' : LogConfig) (random random' : Random), c.Allows s → s.SameSide l l' →
      cfg.encryptionKey = l.cfg.encryptionKey → cfg'.encryptionKey = l'.cfg.encryptionKey →
      s.answer cfg random l = s.answer cfg' random' l' := by
  obtain ⟨hside, hside'⟩ := h.sides
  refine ⟨hside.refines.logEnd.trans hside'.refines.logEnd.symm, fun offset m hsame => ?_,
    fun s cfg cfg' random random' hallows hsame hkey hkey' => ?_⟩
  · rw [hside.read, hside'.read, if_congr hsame rfl rfl]
  · calc s.answer cfg random l
      _ = c.answer l.logStartOffset s :=
        hside.refines.answer hside.offsets hside.recognisable hallows hkey
      _ = c.answer l'.logStartOffset s := answer_eq hsame
      _ = s.answer cfg' random' l' :=
        (hside'.refines.answer hside'.offsets hside'.recognisable hallows hkey').symm

/-! ## One batch a segment against one segment -/

/-- Both logs after more steps, if they can be taken. -/
def takeBoth (random : Random) :
    List Step → BatchList → PartitionLog → PartitionLog → Option (PartitionLog × PartitionLog)
  | [], _, l, l' => some (l, l')
  | s :: rest, c, l, l' =>
    if c.Allows s ∧ s.SameSide l l' then
      match s.exec l.cfg random l, s.exec l'.cfg random l' with
      | .ok l₁, .ok l₁' =>
        if l₁.InFormat ∧ l₁'.InFormat then takeBoth random rest (c.step s) l₁ l₁' else none
      | _, _ => none
    else none

theorem Lockstep.takeBoth {l₁ l₁' : PartitionLog} (h : Lockstep c l l')
    (hl : Raw.takeBoth random steps c l l' = some (l₁, l₁')) :
    Lockstep (run BatchList.step c steps) l₁ l₁' := by
  induction steps generalizing c l l' with
  | nil =>
    cases hl
    exact h
  | cons s rest ih =>
    unfold Raw.takeBoth at hl
    split at hl
    · rename_i hmay
      split at hl
      · rename_i l₂ l₂' hl₂ hl₂'
        split at hl
        · rename_i hformat
          exact ih (h.step hmay.1 hmay.2 rfl rfl hl₂ hl₂' hformat.1 hformat.2) hl
        · cases hl
      · cases hl
    · cases hl

/-- Both logs after the steps, in directories that were empty at first. -/
def bothAfter (cfg cfg' : LogConfig) (random : Random) (steps : List Step) :
    Option (PartitionLog × PartitionLog) :=
  match PartitionLog.openDirectory cfg {} random.salt,
    PartitionLog.openDirectory cfg' {} random.salt with
  | .ok l, .ok l' => takeBoth random steps {} l l'
  | _, _ => none

theorem lockstep_of_bothAfter (hkey : cfg.encryptionKey.isSome)
    (hplain : cfg'.encryptionKey.isNone) (h : bothAfter cfg cfg' random steps = some (l, l')) :
    Lockstep (.after steps) l l' := by
  unfold bothAfter at h
  split at h
  · rename_i l₀ l₀' hopen hopen'
    exact (Lockstep.created hkey hplain hopen hopen').takeBoth h
  · cases h

/-- Two batches, the first of which is no longer needed; then a restart. -/
def twoAppends : List Step :=
  [.append twoRecords, .append twoRecords, .truncatePrefixTo 2, .reopen]

theorem encryption_transparent_twoAppends :
    ∃ l l', Lockstep (.after twoAppends) l l' ∧ l.logStartOffset = 2 ∧ l'.logStartOffset = 0 ∧
      l.logEndOffset = l'.logEndOffset ∧ l.read 2 100 = l'.read 2 100 := by
  have hlogs : (bothAfter narrowKeyed {} noRandom twoAppends).map
      (fun p => (p.1.logStartOffset, p.2.logStartOffset)) = some (2, 0) := by
    decide +kernel
  obtain ⟨⟨l, l'⟩, hboth, hstarts⟩ := Option.map_eq_some_iff.mp hlogs
  obtain ⟨hstart, hstart'⟩ := Prod.mk.inj hstarts
  have hlock := lockstep_of_bothAfter rfl rfl hboth
  obtain ⟨hend, hread, -⟩ := encryption_transparent hlock
  refine ⟨l, l', hlock, hstart, hstart', hend, hread 2 100 ?_⟩
  dsimp only at hstart hstart'
  unfold PartitionLog.SameSide
  omega

/-- The first batch is in a segment of its own only in one of the logs, so that only this one drops
it. -/
theorem read_between_starts :
    ∃ l l', Lockstep (.after twoAppends) l l' ∧ l.read 0 100 ≠ l'.read 0 100 := by
  have hreads : (bothAfter narrowKeyed {} noRandom twoAppends).map
      (fun p => decide (p.1.read 0 100 = p.2.read 0 100)) = some false := by
    decide +kernel
  obtain ⟨⟨l, l'⟩, hboth, hne⟩ := Option.map_eq_some_iff.mp hreads
  exact ⟨l, l', lockstep_of_bothAfter rfl rfl hboth, of_decide_eq_false hne⟩

end Nexus.Raw
