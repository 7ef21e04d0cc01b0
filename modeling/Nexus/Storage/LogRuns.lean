import Nexus.Lib.Run
import Nexus.Storage.RawContents

/-!
# Runs of a partition log

A partition log of files against the list of the batches that were appended to it (`BatchList`):
whatever calls and restarts led to it, a read gives the batches of the list
(`PartitionLog.Run.refines`). Where segments start, how dense the indexes are and whether the files
are encrypted has no influence on what is read.

`truncate_prefix_to` leaves the list as it is: which batches the log drops depends on its segments.
What the list knows is up to where they may be gone (`BatchList.floor`).
-/

namespace Nexus.Raw

open Lib List

variable {m : Nat} {bs : List RecordBatch} {offset : Int} {l : PartitionLog}

/-- A call that changes a log, or a restart. -/
inductive Step where
  | append (batch : RecordBatch)
  | truncateTo (offset : Int)
  | truncatePrefixTo (offset : Int)
  | resetTo (offset : Int)
  | reopen
  deriving DecidableEq

/-- The log after a step. A restart may come with another configuration. -/
def Step.exec (cfg : LogConfig) (random : Random) (l : PartitionLog) : Step → Expected PartitionLog
  | .append batch => (l.append batch random).map Prod.fst
  | .truncateTo offset => l.truncateTo offset
  | .truncatePrefixTo offset => l.truncatePrefixTo offset
  | .resetTo offset => l.resetTo offset random.salt
  | .reopen => PartitionLog.openDirectory cfg l.files random.salt

/-! ## The list of batches -/

/-- The batches since the log was created or reset. -/
structure BatchList where
  start : Int := 0
  /-- The log starts at or below this offset. -/
  floor : Int := 0
  batches : List RecordBatch := []

namespace BatchList

def endOffset (c : BatchList) : Int := endOf c.start c.batches

def step (c : BatchList) : Step → BatchList
  | .append batch => { c with batches := c.batches ++ [batch.rebase c.endOffset] }
  | .truncateTo offset =>
    { c with floor := min c.floor offset, batches := c.batches.takeWhile (below offset) }
  | .truncatePrefixTo offset => { c with floor := max c.floor offset }
  | .resetTo offset => { start := offset, floor := offset }
  | .reopen => c

/-- A batch starts at the offset, or the list ends there. -/
def IsBoundary (c : BatchList) (offset : Int) : Prop :=
  offset = c.endOffset ∨ ∃ b ∈ c.batches, b.baseOffset = offset

instance (c : BatchList) (offset : Int) : Decidable (c.IsBoundary offset) :=
  inferInstanceAs (Decidable (_ ∨ ∃ b ∈ c.batches, b.baseOffset = offset))

/-- Batches have records and fields that fit their encoding, and the end is cut off between two
batches. -/
def Allows (c : BatchList) : Step → Prop
  | .append batch => batch.Fits ∧ 1 ≤ batch.header.recordCount
  | .truncateTo offset => c.IsBoundary offset
  | _ => True

instance (c : BatchList) : DecidablePred c.Allows
  | .append batch => inferInstanceAs (Decidable (batch.Fits ∧ 1 ≤ batch.header.recordCount))
  | .truncateTo offset => inferInstanceAs (Decidable (c.IsBoundary offset))
  | .truncatePrefixTo _ => inferInstanceAs (Decidable True)
  | .resetTo _ => inferInstanceAs (Decidable True)
  | .reopen => inferInstanceAs (Decidable True)

/-- The list after the steps. -/
def after (steps : List Step) : BatchList := run step {} steps

theorem after_concat (steps : List Step) (s : Step) :
    after (steps ++ [s]) = (after steps).step s := run_append _ _ _

variable {c : BatchList}

theorem exists_take_of_isBoundary (hchain : Chain c.start c.batches) (h : c.IsBoundary offset) :
    ∃ j ≤ c.batches.length, offset = endOf c.start (c.batches.take j) ∧
      c.batches.takeWhile (below offset) = c.batches.take j := by
  have hcut : ∃ j ≤ c.batches.length, offset = endOf c.start (c.batches.take j) := by
    rcases h with rfl | ⟨b, hb, rfl⟩
    · exact ⟨_, Nat.le_refl _, by rw [take_length]; rfl⟩
    · obtain ⟨j, hj, hget⟩ := mem_iff_getElem.mp hb
      refine ⟨j, Nat.le_of_lt hj, ?_⟩
      exact hchain.baseOffset_getElem (List.getElem?_eq_some_iff.mpr ⟨hj, hget⟩)
  obtain ⟨j, hj, rfl⟩ := hcut
  refine ⟨j, hj, rfl, ?_⟩
  have hdrop : c.batches.dropWhile (below (endOf c.start (c.batches.take j))) =
      c.batches.drop j := by
    have hsplit := hchain
    rw [← take_append_drop j c.batches] at hsplit
    have := hsplit.dropWhile_below
    rwa [take_append_drop] at this
  have hsplit := takeWhile_append_dropWhile
    (p := below (endOf c.start (c.batches.take j))) (l := c.batches)
  rw [hdrop] at hsplit
  exact append_cancel_right (hsplit.trans (take_append_drop j c.batches).symm)

end BatchList

namespace PartitionLog

variable {offset : Int} {steps : List Step}

/-- The log of a directory that was empty at first, after the steps. Each step may find other
random bytes. -/
inductive Run : List Step → PartitionLog → Prop where
  | created {cfg : LogConfig} {salt : Salt} {l : PartitionLog} :
      openDirectory cfg {} salt = .ok l → Run [] l
  | step {steps : List Step} {l l' : PartitionLog} {s : Step} {cfg : LogConfig} {random : Random} :
      Run steps l → (BatchList.after steps).Allows s →
      cfg.encryptionKey = l.cfg.encryptionKey → s.exec cfg random l = .ok l' → l'.Small →
      Run (steps ++ [s]) l'

/-- The log has the batches of the list, but for some of the first ones. -/
structure Refines (l : PartitionLog) (c : BatchList) : Prop where
  chain : Chain c.start c.batches
  kept : ∃ k ≤ c.batches.length, l.Contains (c.batches.drop k) ∧
    l.logStartOffset = endOf c.start (c.batches.take k)
  floor : l.logStartOffset ≤ c.floor

variable {l l' : PartitionLog} {c : BatchList} {cfg : LogConfig} {random : Random}

section

variable (h : l.Refines c) {salt : Salt}

include h

theorem Refines.logEnd : l.logEndOffset = c.endOffset := by
  obtain ⟨k, -, hholds, hstart⟩ := h.kept
  rw [hholds.logEnd, hstart, ← endOf_append, take_append_drop]
  rfl

theorem Refines.start_le : c.start ≤ l.logStartOffset := by
  obtain ⟨k, -, -, hstart⟩ := h.kept
  rw [hstart]
  exact (h.chain.take k).le_endOf

theorem Refines.append (hbound : l.logEndOffset < 2 ^ 63) {batch : RecordBatch}
    (hfits : batch.Fits) (hcount : 1 ≤ batch.header.recordCount) {last : Int}
    (hl : l.append batch random = .ok (l', last)) (hnarrow : l'.Narrow) :
    l'.Refines (c.step (.append batch)) := by
  obtain ⟨k, hk, hholds, hstart⟩ := h.kept
  obtain ⟨l₂, hl₂, hstart', -, hholds'⟩ := hholds.append hbound hfits hcount random
  obtain ⟨rfl, -⟩ := Prod.mk.inj (Except.ok.inj (hl.symm.trans hl₂))
  rw [h.logEnd] at hholds'
  refine ⟨(chain_append _ _ _).mpr ⟨h.chain, rfl, hcount, trivial⟩, ⟨k, ?_, ?_, ?_⟩, ?_⟩
  · exact Nat.le_trans hk (by simp [BatchList.step])
  · change l'.Contains ((c.batches ++ _).drop k)
    rw [drop_append_of_le_length hk]
    exact hholds' hnarrow
  · change _ = endOf c.start ((c.batches ++ _).take k)
    rw [take_append_of_le_length hk, hstart', hstart]
  · rw [hstart']
    exact h.floor

/-- The end is cut off where the log still has it. -/
theorem Refines.truncateTo (hb : c.IsBoundary offset)
    (hl : l.truncateTo offset = .ok l') : l'.Refines (c.step (.truncateTo offset)) := by
  obtain ⟨k, hk, hholds, hstart⟩ := h.kept
  obtain ⟨j, hj, hoffset, hcut⟩ := BatchList.exists_take_of_isBoundary h.chain hb
  have hkj : k ≤ j := by
    refine h.chain.le_of_endOf_take_le hk ?_
    rw [← hoffset, ← hstart]
    exact hholds.le_of_truncateTo hl
  have hoffset' : offset = endOf l.logStartOffset ((c.batches.drop k).take (j - k)) := by
    rw [hstart, ← endOf_append, ← take_add, Nat.add_sub_cancel' hkj, hoffset]
  obtain ⟨l₂, hl₂, hholds', hstart', -⟩ := hholds.truncateTo
    (show j - k ≤ (c.batches.drop k).length by rw [length_drop]; omega)
  rw [← hoffset'] at hl₂
  obtain rfl := Except.ok.inj (hl.symm.trans hl₂)
  refine ⟨?_, ⟨k, ?_, ?_, ?_⟩, ?_⟩
  · change Chain c.start (c.batches.takeWhile (below offset))
    rw [hcut]
    exact h.chain.take j
  · change k ≤ (c.batches.takeWhile (below offset)).length
    rw [hcut, length_take]
    omega
  · change l'.Contains ((c.batches.takeWhile (below offset)).drop k)
    rw [hcut, drop_take]
    exact hholds'
  · change _ = endOf c.start ((c.batches.takeWhile (below offset)).take k)
    rw [hcut, take_take, Nat.min_eq_left hkj, hstart', hstart]
  · change l'.logStartOffset ≤ min c.floor offset
    rw [hstart']
    exact le_min h.floor (hholds.le_of_truncateTo hl)

theorem Refines.truncatePrefixTo (hl : l.truncatePrefixTo offset = .ok l') :
    l'.Refines (c.step (.truncatePrefixTo offset)) := by
  obtain ⟨k, hk, hholds, hstart⟩ := h.kept
  obtain ⟨l₂, j, hl₂, hj, hholds', hstart', hmax, -⟩ :=
    hholds.truncatePrefixTo (hholds.le_of_truncatePrefixTo hl)
  obtain rfl := Except.ok.inj (hl.symm.trans hl₂)
  have hfloor := h.floor
  refine ⟨h.chain, ⟨k + j, ?_, ?_, ?_⟩, ?_⟩
  · rw [length_drop] at hj
    change k + j ≤ c.batches.length
    omega
  · change l'.Contains (c.batches.drop (k + j))
    rw [← drop_drop]
    exact hholds'
  · change _ = endOf c.start (c.batches.take (k + j))
    rw [hstart', hstart, take_add, endOf_append]
  · change l'.logStartOffset ≤ max c.floor offset
    omega

theorem Refines.resetTo (hl : l.resetTo offset salt = .ok l') :
    l'.Refines (c.step (.resetTo offset)) := by
  obtain ⟨k, -, hholds, -⟩ := h.kept
  obtain ⟨l₂, hl₂, hstart, -, hholds'⟩ := hholds.resetTo (nonneg_of_resetTo hl) salt
  obtain rfl := Except.ok.inj (hl.symm.trans hl₂)
  exact ⟨trivial, ⟨0, Nat.le_refl _, hholds', hstart⟩, Int.le_of_eq hstart⟩

theorem Refines.reopen (hrec : l.Recognisable) (hkey : cfg.encryptionKey = l.cfg.encryptionKey)
    (hl : openDirectory cfg l.files salt = .ok l') : l'.Refines c := by
  obtain ⟨k, hk, hholds, hstart⟩ := h.kept
  obtain ⟨l₂, hl₂, hholds', hstart', -⟩ := hholds.reopen hrec hkey salt
  obtain rfl := Except.ok.inj (hl.symm.trans hl₂)
  exact ⟨h.chain, ⟨k, hk, hholds', hstart'.trans hstart⟩, by rw [hstart']; exact h.floor⟩

/-- One step of the log is one step of the list. -/
theorem Refines.step (hbound : l.logEndOffset < 2 ^ 63) (hrec : l.Recognisable)
    {s : Step} (hallows : c.Allows s) (hkey : cfg.encryptionKey = l.cfg.encryptionKey)
    (hl : s.exec cfg random l = .ok l') (hnarrow : l'.Narrow) : l'.Refines (c.step s) := by
  cases s with
  | append batch =>
    change (l.append batch random).map Prod.fst = .ok l' at hl
    cases hres : l.append batch random with
    | error e => rw [hres] at hl; cases hl
    | ok res =>
      rw [hres] at hl
      cases hl
      exact h.append hbound hallows.1 hallows.2 hres hnarrow
  | truncateTo offset => exact h.truncateTo hallows hl
  | truncatePrefixTo offset => exact h.truncatePrefixTo hl
  | resetTo offset => exact h.resetTo hl
  | reopen => exact h.reopen hrec hkey hl

theorem Refines.recognisable (hbound : l.logEndOffset < 2 ^ 45) :
    l.Recognisable := by
  obtain ⟨k, -, hholds, -⟩ := h.kept
  exact Holds.recognisable ⟨hholds, hbound⟩

end

section

variable (h : Run steps l)

include h

theorem Run.bound : l.logEndOffset < 2 ^ 45 := by
  cases h with
  | @created cfg salt _ hl =>
    obtain ⟨l₂, hl₂, hholds, -⟩ := holds_openDirectory_nil cfg salt
    obtain rfl := Except.ok.inj (hl.symm.trans hl₂)
    exact hholds.bound
  | step _ _ _ _ hsmall => exact hsmall.2.2

/-- Whatever steps led to it, the log refines the list after the same steps. -/
theorem Run.refines : l.Refines (.after steps) := by
  induction h with
  | @created cfg salt l hl =>
    obtain ⟨l₂, hl₂, hholds, hstart, -⟩ := holds_openDirectory_nil cfg salt
    obtain rfl := Except.ok.inj (hl.symm.trans hl₂)
    exact ⟨trivial, ⟨0, Nat.le_refl _, hholds.toContains, hstart⟩, Int.le_of_eq hstart⟩
  | step hrun hallows hkey hl hsmall ih =>
    rw [BatchList.after_concat]
    have hbound := hrun.bound
    exact ih.step (Int.lt_trans hbound (by decide)) (ih.recognisable hbound) hallows hkey hl
      hsmall.narrow

theorem Run.holds : ∃ bs, l.Holds bs := by
  obtain ⟨k, -, hholds, -⟩ := h.refines.kept
  exact ⟨_, hholds, h.bound⟩

/-- Every batch of the list has an encoding. -/
theorem Run.fits : ∀ b ∈ (BatchList.after steps).batches, b.Fits := by
  induction h with
  | created _ => exact nofun
  | @step steps l _ s _ _ hrun hallows _ _ _ ih =>
    obtain ⟨k, -, hholds, -⟩ := hrun.refines.kept
    have hend := hrun.refines.logEnd
    have hlo := hholds.chain.le_endOf
    rw [← hholds.logEnd] at hlo
    have hnonneg := hholds.nonneg
    have hbound := hrun.bound
    rw [BatchList.after_concat]
    intro b hb
    cases s with
    | append batch =>
      rcases mem_append.mp hb with hb | hb
      · exact ih b hb
      · rw [mem_singleton.mp hb, ← hend]
        refine hallows.1.rebase ?_
        norm_num at hbound ⊢
        omega
    | truncateTo offset => exact ih b (takeWhile_sublist _ |>.subset hb)
    | truncatePrefixTo offset => exact ih b hb
    | resetTo offset => exact nomatch hb
    | reopen => exact ih b hb

end

/-- The steps that the list allows and that stay in the log can be taken. -/
theorem Refines.exec_ok (h : l.Refines c) (hbound : l.logEndOffset < 2 ^ 63)
    (hrec : l.Recognisable) {s : Step} (hallows : c.Allows s)
    (hkey : cfg.encryptionKey = l.cfg.encryptionKey)
    (hrange : match s with
      | .truncateTo offset => l.logStartOffset ≤ offset
      | .truncatePrefixTo offset => offset ≤ l.logEndOffset
      | .resetTo offset => 0 ≤ offset
      | _ => True) :
    ∃ l', s.exec cfg random l = .ok l' := by
  obtain ⟨k, hk, hholds, hstart⟩ := h.kept
  cases s with
  | append batch =>
    obtain ⟨l', hl', -⟩ := hholds.append hbound hallows.1 hallows.2 random
    exact ⟨l', by rw [Step.exec, hl']; rfl⟩
  | truncateTo offset =>
    obtain ⟨j, hj, hoffset, -⟩ := BatchList.exists_take_of_isBoundary h.chain hallows
    have hkj : k ≤ j := by
      refine h.chain.le_of_endOf_take_le hk ?_
      rw [← hoffset, ← hstart]
      exact hrange
    obtain ⟨l', hl', -⟩ := hholds.truncateTo
      (show j - k ≤ (c.batches.drop k).length by rw [length_drop]; omega)
    rw [hstart, ← endOf_append, ← take_add, Nat.add_sub_cancel' hkj, ← hoffset] at hl'
    exact ⟨l', hl'⟩
  | truncatePrefixTo offset =>
    obtain ⟨l', -, hl', -⟩ := hholds.truncatePrefixTo hrange
    exact ⟨l', hl'⟩
  | resetTo offset =>
    obtain ⟨l', hl', -⟩ := hholds.resetTo hrange random.salt
    exact ⟨l', hl'⟩
  | reopen =>
    obtain ⟨l', hl', -⟩ := hholds.reopen hrec hkey random.salt
    exact ⟨l', hl'⟩

/-! ## Reading -/

/-- The batches that the log still has are all that a read from its start on can see. -/
theorem Refines.read (h : l.Refines c) (ho : l.logStartOffset ≤ offset) (m : Nat) :
    l.read offset m =
      .ok { batches := encodeAll (takeRun m (c.batches.dropWhile (below offset)))
            nextOffset := endOf offset (takeRun m (c.batches.dropWhile (below offset))) } := by
  obtain ⟨k, hk, hholds, hstart⟩ := h.kept
  have hbelow : ∀ b ∈ c.batches.take k, below offset b := fun b hb => by
    have hb := (h.chain.take k).below_endOf b hb
    rw [← hstart] at hb
    exact decide_eq_true (Int.lt_of_lt_of_le (of_decide_eq_true hb) ho)
  conv => rhs; rw [← take_append_drop k c.batches, dropWhile_append_of_pos hbelow]
  exact hholds.read ho m

end PartitionLog

/-- A shortest run of consecutive batches of `bs` that starts with the one that has the offset and
reaches `m` bytes, or the end. -/
structure ShortestRun (bs : List RecordBatch) (offset : Int) (m : Nat)
    (taken : List RecordBatch) : Prop where
  first : ∃ b, taken.head? = some b ∧ b.baseOffset ≤ offset ∧ offset ≤ b.lastOffset
  reaches : ∃ pre rest, bs = pre ++ (taken ++ rest) ∧ (m ≤ blockBytes taken ∨ rest = [])
  shortest : blockBytes taken.dropLast < m

/-- What is taken reaches the size, and did not before its last batch. -/
theorem takeRun_spec (hm : 0 < m) (hne : bs ≠ []) :
    takeRun m bs ≠ [] ∧ blockBytes (takeRun m bs).dropLast < m ∧
      ∃ rest, bs = takeRun m bs ++ rest ∧ (m ≤ blockBytes (takeRun m bs) ∨ rest = []) := by
  induction bs generalizing m with
  | nil => exact absurd rfl hne
  | cons b bs ih =>
    rw [takeRun_cons hm]
    refine ⟨cons_ne_nil _ _, ?_⟩
    by_cases hlast : m ≤ b.encodedSize ∨ bs = []
    · have htake : takeRun (m - b.encodedSize) bs = [] := by
        rcases hlast with hle | rfl
        · rw [Nat.sub_eq_zero_of_le hle, takeRun_zero]
        · rfl
      rw [htake]
      exact ⟨hm, bs, rfl, by simpa using hlast⟩
    · push Not at hlast
      obtain ⟨htaken, hshort, rest, hsplit, hreach⟩ :=
        ih (show 0 < m - b.encodedSize by omega) hlast.2
      rw [dropLast_cons_of_ne_nil htaken, blockBytes_cons, blockBytes_cons]
      refine ⟨by omega, rest, by rw [cons_append, ← hsplit], ?_⟩
      exact hreach.imp_left fun hle => by omega

theorem shortestRun_takeRun {o : Int} (h : Chain o bs) (hlo : o ≤ offset)
    (hhi : offset < endOf o bs) (hm : 0 < m) :
    ShortestRun bs offset m (takeRun m (bs.dropWhile (below offset))) := by
  obtain ⟨b, cs, hdrop, hb⟩ := h.dropWhile_eq_cons hlo hhi
  rw [hdrop]
  obtain ⟨htaken, hshort, rest, hsplit, hreach⟩ := takeRun_spec hm (cons_ne_nil b cs)
  refine ⟨⟨b, ?_, hb⟩, ⟨bs.takeWhile (below offset), rest, ?_, hreach⟩, hshort⟩
  · rw [takeRun_cons hm]
    rfl
  · rw [← hsplit, ← hdrop, takeWhile_append_dropWhile]

theorem ShortestRun.exists_getLast {taken : List RecordBatch} (h : ShortestRun bs offset m taken) :
    ∃ last, taken.getLast? = some last ∧ endOf offset taken = last.lastOffset + 1 := by
  obtain ⟨b, hb, -⟩ := h.first
  rcases eq_nil_or_concat taken with rfl | ⟨init, last, rfl⟩
  · cases hb
  · rw [concat_eq_append]
    exact ⟨last, getLast?_concat, by rw [endOf_append, endOf_cons, endOf_nil]⟩

theorem PartitionLog.Holds.read_shortest (h : l.Holds bs) (hlo : l.logStartOffset ≤ offset)
    (hhi : offset < l.logEndOffset) (hm : 0 < m) :
    ∃ taken last, ShortestRun bs offset m taken ∧ taken.getLast? = some last ∧
      l.read offset m = .ok { batches := encodeAll taken, nextOffset := last.lastOffset + 1 } := by
  rw [h.logEnd] at hhi
  have hrun := shortestRun_takeRun h.chain hlo hhi hm
  obtain ⟨last, hlast, hnext⟩ := hrun.exists_getLast
  exact ⟨_, last, hrun, hlast, by rw [h.read hlo m, hnext]⟩

/-- A log has the batches that were appended to it, from its start on, and a read gives the shortest
run of them. Two logs to which the same happened read the same. -/
theorem partitionLog_refines {steps : List Step} {l : PartitionLog} (h : PartitionLog.Run steps l) :
    ((BatchList.after steps).start ≤ l.logStartOffset ∧
      l.logStartOffset ≤ (BatchList.after steps).floor ∧
      l.logEndOffset = (BatchList.after steps).endOffset) ∧
    (∀ (offset : Int) (m : Nat), l.logStartOffset ≤ offset → offset < l.logEndOffset → 0 < m →
      ∃ taken last, ShortestRun (BatchList.after steps).batches offset m taken ∧
        taken.getLast? = some last ∧
        l.read offset m =
          .ok { batches := encodeAll taken, nextOffset := last.lastOffset + 1 }) ∧
    ∀ l', PartitionLog.Run steps l' → ∀ (offset : Int) (m : Nat), l.logStartOffset ≤ offset →
      l'.logStartOffset ≤ offset → l'.read offset m = l.read offset m := by
  have href := h.refines
  refine ⟨⟨href.start_le, href.floor, href.logEnd⟩, fun offset m hlo hhi hm => ?_,
    fun l' h' offset m ho ho' => ?_⟩
  · rw [href.logEnd] at hhi
    have hrun := shortestRun_takeRun href.chain (Int.le_trans href.start_le hlo) hhi hm
    obtain ⟨last, hlast, hnext⟩ := hrun.exists_getLast
    exact ⟨_, last, hrun, hlast, by rw [href.read hlo m, hnext]⟩
  · rw [href.read ho m, h'.refines.read ho' m]

/-- The log after more steps, if they can be taken. -/
def PartitionLog.take (random : Random) : List Step → BatchList → PartitionLog → Option PartitionLog
  | [], _, l => some l
  | s :: rest, c, l =>
    if c.Allows s then
      match s.exec l.cfg random l with
      | .error _ => none
      | .ok l' => if l'.Small then take random rest (c.step s) l' else none
    else none

theorem PartitionLog.Run.take {random : Random} {steps rest : List Step} {l' : PartitionLog}
    (h : Run steps l) (hl : l.take random rest (.after steps) = some l') :
    Run (steps ++ rest) l' := by
  induction rest generalizing steps l with
  | nil =>
    cases hl
    rw [append_nil]
    exact h
  | cons s rest ih =>
    unfold PartitionLog.take at hl
    split at hl
    · rename_i hallows
      split at hl
      · cases hl
      · rename_i l₁ hl₁
        split at hl
        · rename_i hsmall
          rw [append_cons]
          exact ih (h.step hallows rfl hl₁ hsmall) (by rw [BatchList.after_concat]; exact hl)
        · cases hl
    · cases hl

/-- The log after the steps, in a directory that was empty at first. -/
def PartitionLog.logAfter (cfg : LogConfig) (random : Random) (steps : List Step) :
    Option PartitionLog :=
  match openDirectory cfg {} random.salt with
  | .error _ => none
  | .ok l => l.take random steps {}

theorem PartitionLog.run_of_logAfter {cfg : LogConfig} {random : Random} {steps : List Step}
    (h : logAfter cfg random steps = some l) : Run steps l := by
  unfold logAfter at h
  split at h
  · cases h
  · rename_i l₀ hopen
    exact @Run.take l₀ random [] steps l (.created hopen) h

/-- Segments of one batch, and an index entry for every batch. -/
def narrow : LogConfig := { segmentBytes := 1, indexIntervalBytes := 1 }

def xorKey : EncryptionKey := fun _ => .xorCipher

/-- The same, encrypted. -/
def narrowKeyed : LogConfig := { narrow with encryptionKey := some xorKey }

def noRandom : Random := { salt := zeroSalt, nonce := zeroNonce }

def twoRecords : RecordBatch := { header := { recordCount := 2 }, records := [7] }

/-- Three batches, the last one twice; the first segment is dropped and the log opened again. -/
def everyStep : List Step :=
  [.resetTo 3, .append twoRecords, .append twoRecords, .append twoRecords, .truncateTo 7,
    .append twoRecords, .truncatePrefixTo 6, .reopen]

theorem partitionLog_refines_everyStep :
    ∃ l taken last, PartitionLog.Run everyStep l ∧
      ShortestRun (BatchList.after everyStep).batches 6 1 taken ∧ taken.getLast? = some last ∧
      l.read 6 1 = .ok { batches := encodeAll taken, nextOffset := last.lastOffset + 1 } := by
  have hlog : (PartitionLog.logAfter narrow noRandom everyStep).map
      (fun l => (l.logStartOffset, l.logEndOffset)) = some (5, 9) := by
    decide +kernel
  obtain ⟨l, hl, hoffsets⟩ := Option.map_eq_some_iff.mp hlog
  obtain ⟨hstart, hend⟩ := Prod.mk.inj hoffsets
  have hrun := PartitionLog.run_of_logAfter hl
  obtain ⟨taken, last, hread⟩ := (partitionLog_refines hrun).2.1 6 1 (by omega) (by omega)
    (by omega)
  exact ⟨l, taken, last, hrun, hread⟩

end Nexus.Raw
