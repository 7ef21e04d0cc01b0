import Mathlib.Order.Bounds.Defs
import Nexus.Consensus.Handlers
import Nexus.Consensus.LogRefinement

/-!
# What a leader's entries do to a follower

`append_entries_from` passes over the entries of a message that the log has with their term. From
the first one that it lacks on, they replace whatever the log had there.

* `Adopts`: the log after a message that was accepted, entry by entry.
* `lastIndex_appendEntriesFrom`: where that log ends, and so how far the follower can commit.
* `Redelivered`: the message brings nothing new, and what a follower that has compacted says to it.
* `Committable`: the rule by which a leader commits.
-/

namespace Nexus

open Lib RaftLog List

variable {e : RaftLogEntry} {args : AppendEntriesArgs} {i : Nat}

/-- The entries of the message follow one another after `prev_log_index`. -/
def AppendEntriesArgs.Consecutive (args : AppendEntriesArgs) : Prop :=
  args.entries.map RaftLogEntry.index = List.range' (args.prevLogIndex + 1) args.entries.length

instance (args : AppendEntriesArgs) : Decidable args.Consecutive :=
  inferInstanceAs (Decidable (_ = _))

theorem AppendEntriesArgs.Consecutive.index_eq (h : args.Consecutive)
    (he : args.entries[i]? = some e) : e.index = args.prevLogIndex + 1 + i := by
  have hlt := (List.getElem?_eq_some_iff.mp he).1
  have hi := congrArg (·[i]?) h
  simp only [List.getElem?_map, he, Option.map_some, List.getElem?_range' hlt, Nat.one_mul] at hi
  exact Option.some.inj hi

/-- The indices of a part of the message. -/
theorem AppendEntriesArgs.Consecutive.index_append (h : args.Consecutive)
    {xs ys : List RaftLogEntry} (he : args.entries = xs ++ e :: ys) :
    e.index = args.prevLogIndex + 1 + xs.length :=
  h.index_eq (by rw [he]; simp)

namespace RaftLog

variable {r r' : RaftLog} {index : Nat}

theorem holds_iff {term : Nat} :
    r.holds index term ↔ index ≤ r.lastIndex ∧ r.termAt index = .ok term := by
  rw [holds, Bool.and_eq_true, decide_eq_true_eq, beq_iff_eq]

/-- Either the log has all the entries, or there is a first one that it lacks. -/
theorem holds_or_lacks (r : RaftLog) (es : List RaftLogEntry) :
    (∀ e ∈ es, r.holds e.index e.term) ∨
      ∃ xs e ys, es = xs ++ e :: ys ∧ (∀ x ∈ xs, r.holds x.index x.term) ∧
        ¬ r.holds e.index e.term := by
  induction es with
  | nil => exact .inl (by simp)
  | cons e es ih =>
    by_cases he : r.holds e.index e.term
    · rcases ih with hall | ⟨xs, d, ys, rfl, hxs, hd⟩
      · exact .inl (forall_mem_cons.mpr ⟨he, hall⟩)
      · exact .inr ⟨e :: xs, d, ys, rfl, forall_mem_cons.mpr ⟨he, hxs⟩, hd⟩
    · exact .inr ⟨[], e, es, rfl, by simp, he⟩

theorem lastIndex_append {fails : Option Nat} {es : List RaftLogEntry}
    (h : (r.append fails es).2.toBool) :
    (r.append fails es).1.lastIndex = r.lastIndex + es.length := by
  induction es generalizing r fails with
  | nil => rw [append]; rfl
  | cons e es ih =>
    by_cases hfail : fails = some 0
    · subst hfail
      simp [append, makeError, Except.toBool] at h
    cases happ : r.log.append e.payload with
    | error err =>
      rw [append, happ] at h
      · cases h
      · exact hfail
    | ok out =>
      rw [append_cons hfail happ] at h ⊢
      rw [ih h]
      simp only [lastIndex, length_append, length_cons, length_nil]
      omega

theorem truncateFrom_of_gt (hlo : r.snapshotIndex < index) (hgt : index > r.lastIndex) :
    r.truncateFrom index = .ok r := by
  rw [truncateFrom, if_neg (by omega), if_neg (by omega), if_pos hgt]

theorem lastIndex_truncateFrom (hi : index ≤ r.lastIndex) (h : r.truncateFrom index = .ok r') :
    r.snapshotIndex < index ∧ r'.lastIndex + 1 = index := by
  unfold truncateFrom at h
  by_cases h0 : index < 1
  · rw [if_pos h0] at h; cases h
  by_cases hsnap : index ≤ r.snapshotIndex
  · rw [if_neg h0, if_pos hsnap] at h; cases h
  rw [if_neg h0, if_neg hsnap, if_neg (Nat.not_lt_of_le hi)] at h
  refine ⟨Nat.lt_of_not_le hsnap, ?_⟩
  have hslot : r.slotOf index < r.entries.length := by
    unfold slotOf
    unfold lastIndex at hi
    omega
  rw [getElem?_eq_getElem hslot] at h
  dsimp only at h
  cases htrunc : r.log.truncateTo r.entries[r.slotOf index].baseOffset with
  | error err => rw [htrunc] at h; cases h
  | ok log =>
    rw [htrunc] at h
    cases h
    simp only [lastIndex, length_take]
    unfold slotOf at hslot ⊢
    omega

end RaftLog

namespace RaftNode

variable {n : RaftNode} {log : RaftLog} {io : LogIo} {now : Int}

/-! ## The loop -/

/-- Entries that the log has are passed over. -/
theorem appendEntriesFrom_append {xs : List RaftLogEntry}
    (h : ∀ x ∈ xs, log.holds x.index x.term) (ys : List RaftLogEntry) :
    appendEntriesFrom log io (xs ++ ys) = appendEntriesFrom log io ys := by
  induction xs with
  | nil => rfl
  | cons x xs ih =>
    obtain ⟨hle, hterm⟩ := holds_iff.mp (h x mem_cons_self)
    rw [cons_append, appendEntriesFrom, if_neg (Nat.not_lt_of_le hle), if_pos hterm]
    exact ih fun y hy => h y (mem_cons_of_mem x hy)

theorem appendEntriesFrom_held {es : List RaftLogEntry}
    (h : ∀ e ∈ es, log.holds e.index e.term) : appendEntriesFrom log io es = (log, true) := by
  rw [← append_nil es, appendEntriesFrom_append h]
  rfl

/-- At the first entry that the log lacks, the log is cut if it reaches that far, and the rest of
the message is appended. -/
theorem appendEntriesFrom_lacks (io : LogIo) (ys : List RaftLogEntry)
    (h : ¬ log.holds e.index e.term) {out : RaftLog × Bool}
    (hout : appendEntriesFrom log io (e :: ys) = out) :
    (∃ cut, (e.index > log.lastIndex ∧ cut = log ∨
        e.index ≤ log.lastIndex ∧ io.truncateFails = false ∧ log.truncateFrom e.index = .ok cut) ∧
      out = ((cut.append io.appendFails (e :: ys)).1,
        (cut.append io.appendFails (e :: ys)).2.toBool)) ∨
    out = (log, false) ∧ e.index ≤ log.lastIndex ∧
      (io.truncateFails = true ∨ ∃ err, log.truncateFrom e.index = .error err) := by
  subst hout
  rw [appendEntriesFrom]
  split
  · rename_i hgt
    exact .inl ⟨log, .inl ⟨hgt, rfl⟩, rfl⟩
  rename_i hle
  have hle := Nat.le_of_not_lt hle
  rw [if_neg fun hterm => h (holds_iff.mpr ⟨hle, hterm⟩)]
  split
  · rename_i hfails
    exact .inr ⟨rfl, hle, .inl hfails⟩
  rename_i hfails
  cases htrunc : log.truncateFrom e.index with
  | error err => exact .inr ⟨rfl, hle, .inr ⟨err, rfl⟩⟩
  | ok cut => exact .inl ⟨cut, .inr ⟨hle, Bool.eq_false_iff.mpr hfails, rfl⟩, rfl⟩

/-- The log reaches up to the first entry that it lacks. -/
theorem le_lastIndex_of_holds (hcons : args.Consecutive) (hprev : args.prevLogIndex ≤ log.lastIndex)
    {xs ys : List RaftLogEntry} (hes : args.entries = xs ++ ys)
    (hxs : ∀ x ∈ xs, log.holds x.index x.term) :
    args.prevLogIndex + xs.length ≤ log.lastIndex := by
  rcases eq_nil_or_concat xs with rfl | ⟨ws, w, rfl⟩
  · exact hprev
  · have hsplit : args.entries = ws ++ w :: ys := by rw [hes]; simp
    have hw := hcons.index_append hsplit
    have hle := (holds_iff.mp (hxs w (by simp))).1
    rw [length_concat]
    omega

/-- Where the log ends: where it did when it had all the entries, else with the message. -/
theorem lastIndex_appendEntriesFrom (hcons : args.Consecutive)
    (hprev : args.prevLogIndex ≤ log.lastIndex)
    (hok : (appendEntriesFrom log io args.entries).2 = true) :
    (∀ e ∈ args.entries, log.holds e.index e.term) ∧
        (appendEntriesFrom log io args.entries).1 = log ∨
      (∃ e ∈ args.entries, ¬ log.holds e.index e.term) ∧
        (appendEntriesFrom log io args.entries).1.lastIndex =
          args.prevLogIndex + args.entries.length := by
  rcases log.holds_or_lacks args.entries with hall | ⟨xs, e, ys, hes, hxs, he⟩
  · exact .inl ⟨hall, by rw [appendEntriesFrom_held hall]⟩
  refine .inr ⟨⟨e, by rw [hes]; simp, he⟩, ?_⟩
  have hindex := hcons.index_append hes
  have hlen : args.entries.length = xs.length + (e :: ys).length := by rw [hes]; simp
  rw [hes, appendEntriesFrom_append hxs] at hok
  rw [hlen, hes, appendEntriesFrom_append hxs]
  have hbefore := le_lastIndex_of_holds hcons hprev hes hxs
  rcases appendEntriesFrom_lacks io ys he rfl with
    ⟨cut, hcut, hout⟩ | ⟨hout, -⟩
  · rw [hout] at hok ⊢
    rw [lastIndex_append hok]
    rcases hcut with ⟨hgt, rfl⟩ | ⟨hle, -, htrunc⟩
    · omega
    · have := (lastIndex_truncateFrom hle htrunc).2
      omega
  · rw [hout] at hok
    cases hok

/-! ## The handler -/

/-- The checks of `on_append_entries`: the leader is not behind, and its previous entry is in the
log. -/
structure Accepts (n : RaftNode) (args : AppendEntriesArgs) : Prop where
  term : n.currentTerm ≤ args.term
  reaches : args.prevLogIndex ≤ n.log.lastIndex
  prev : n.log.termAt args.prevLogIndex = .ok args.prevLogTerm

theorem onAppendEntries_of_accepts (h : n.Accepts args) (io : LogIo) (now : Int) :
    let out := n.onAppendEntries io now args
    let appended := appendEntriesFrom n.log io args.entries
    out.1.log = appended.1 ∧ out.2.success = appended.2 ∧
      out.1.commitIndex = if appended.2 ∧ args.leaderCommit > n.commitIndex then
        min args.leaderCommit appended.1.lastIndex else n.commitIndex := by
  obtain ⟨hlog, hcommit⟩ := recogniseLeader_keeps (n := n) now args.leaderId h.term
  unfold onAppendEntries
  rw [if_neg (Nat.not_lt_of_le h.term)]
  dsimp only
  generalize n.recogniseLeader now args.term args.leaderId = m at hlog hcommit ⊢
  rw [hlog, if_neg (Nat.not_lt_of_le h.reaches), h.prev, ← hcommit]
  dsimp only
  rw [if_neg (not_not.mpr rfl)]
  cases (appendEntriesFrom n.log io args.entries).2 with
  | false => exact ⟨rfl, rfl, by simp [setLog, commitIndex]⟩
  | true =>
    by_cases hc : args.leaderCommit > m.commitIndex
    · simp only [commitIndex_setLog, Bool.not_true, Bool.false_eq_true, hc, if_true, if_false,
        true_and]
      exact ⟨rfl, rfl⟩
    · simp only [commitIndex_setLog, Bool.not_true, Bool.false_eq_true, hc, if_false, and_false,
        true_and]
      exact ⟨rfl, trivial⟩

theorem onAppendEntries_of_not_accepts (h : ¬ n.Accepts args) (io : LogIo) (now : Int) :
    (n.onAppendEntries io now args).1.log = n.log ∧
      (n.onAppendEntries io now args).2.success = false ∧
      (n.onAppendEntries io now args).1.commitIndex = n.commitIndex := by
  unfold onAppendEntries
  split
  · exact ⟨rfl, rfl, rfl⟩
  rename_i hterm
  have hterm := Nat.le_of_not_lt hterm
  obtain ⟨hlog, hcommit⟩ := recogniseLeader_keeps (n := n) now args.leaderId hterm
  dsimp only
  generalize n.recogniseLeader now args.term args.leaderId = m at hlog hcommit ⊢
  rw [hlog]
  split
  · exact ⟨hlog, rfl, hcommit⟩
  rename_i hreach
  split
  · exact ⟨hlog, rfl, hcommit⟩
  rename_i t ht
  split
  · exact ⟨hlog, rfl, hcommit⟩
  · rename_i heq
    exact absurd ⟨hterm, Nat.le_of_not_lt hreach, by rw [ht, not_not.mp heq]⟩ h

theorem accepts_of_success (h : (n.onAppendEntries io now args).2.success = true) :
    n.Accepts args := by
  by_contra hacc
  rw [(onAppendEntries_of_not_accepts hacc io now).2.1] at h
  cases h

end RaftNode

/-! ## The log after the message -/

/-- The entry of the log is that of the message, at the offset that the log gave to it. -/
structure LogEntry.CopyOf (x : LogEntry) (e : RaftLogEntry) : Prop where
  term : x.term = e.term
  type : x.type = e.type
  batch : x.batch = e.payload.rebase x.batch.baseOffset

theorem place_copyOf {es : List RaftLogEntry} (o : Int) (he : es[i]? = some e) :
    ∃ x, (place o es)[i]? = some x ∧ x.CopyOf e := by
  induction es generalizing i o with
  | nil => cases he
  | cons d es ih =>
    cases i with
    | zero =>
      cases he
      exact ⟨_, rfl, rfl, rfl, rfl⟩
    | succ i => exact ih _ he

theorem length_place (o : Int) (es : List RaftLogEntry) : (place o es).length = es.length := by
  induction es generalizing o with
  | nil => rfl
  | cons e es ih => rw [place, length_cons, ih, length_cons]

namespace AbstractLog

variable {a : AbstractLog}

/-- The log has an entry with the index and the term of `e`. -/
def Has (a : AbstractLog) (e : RaftLogEntry) : Prop :=
  (a.entryAt e.index).map LogEntry.term = some e.term

instance (a : AbstractLog) (e : RaftLogEntry) : Decidable (a.Has e) :=
  inferInstanceAs (Decidable (_ = _))

/-- The log has `e` and every entry of the message before it. -/
def HasUpTo (a : AbstractLog) (es : List RaftLogEntry) (e : RaftLogEntry) : Prop :=
  ∀ d ∈ es, d.index ≤ e.index → a.Has d

/-- What the entries of a message make of the log `a`. -/
structure Adopts (a : AbstractLog) (args : AppendEntriesArgs) (a' : AbstractLog) : Prop where
  snapshot : a'.snapshot = a.snapshot
  /-- Nothing changes up to the previous entry. -/
  kept : ∀ index ≤ args.prevLogIndex, a'.entryAt index = a.entryAt index
  /-- The entries that the log had stay, up to the first one that it lacks. -/
  held : ∀ e ∈ args.entries, a.HasUpTo args.entries e → a'.entryAt e.index = a.entryAt e.index
  /-- From there on the entries are those of the message. -/
  taken : ∀ e ∈ args.entries, ¬ a.HasUpTo args.entries e →
    ∃ x, a'.entryAt e.index = some x ∧ x.CopyOf e
  /-- After them comes the old tail when the log had them all, and else nothing. -/
  tail : (∀ e ∈ args.entries, a.Has e) ∧ a' = a ∨
    (∃ e ∈ args.entries, ¬ a.Has e) ∧ a'.lastIndex = args.prevLogIndex + args.entries.length

theorem adopts_self (h : ∀ e ∈ args.entries, a.Has e) : a.Adopts args a where
  snapshot := rfl
  kept _ _ := rfl
  held _ _ _ := rfl
  taken _ _ hlacks := absurd (fun d hd _ => h d hd) hlacks
  tail := .inl ⟨h, rfl⟩

/-- The log up to `index`, with other entries after it. -/
def replaceAfter (a : AbstractLog) (index : Nat) (es : List LogEntry) : AbstractLog :=
  { a with entries := a.entries.take (index - a.snapshot.index) ++ es }

section ReplaceAfter

variable {index : Nat} {es : List LogEntry}

section

variable (hlo : a.snapshot.index ≤ index)

include hlo

section

variable (hhi : index ≤ a.lastIndex)

include hhi

theorem length_take_entries :
    (a.entries.take (index - a.snapshot.index)).length = index - a.snapshot.index := by
  rw [length_take]
  unfold lastIndex at hhi
  omega

theorem entryAt_replaceAfter_le
    {k : Nat} (hk : k ≤ index) : (a.replaceAfter index es).entryAt k = a.entryAt k := by
  have hlen := length_take_entries hlo hhi
  unfold entryAt replaceAfter
  dsimp only
  split
  · rfl
  · rw [getElem?_append_left (by omega), getElem?_take_of_lt (by omega)]

theorem entryAt_replaceAfter
    (i : Nat) : (a.replaceAfter index es).entryAt (index + 1 + i) = es[i]? := by
  have hlen := length_take_entries hlo hhi
  unfold entryAt replaceAfter
  dsimp only
  rw [if_neg (by omega), getElem?_append_right (by omega), hlen]
  congr 1
  omega

theorem lastIndex_replaceAfter :
    (a.replaceAfter index es).lastIndex = index + es.length := by
  have hlen := length_take_entries hlo hhi
  unfold lastIndex replaceAfter
  rw [length_append, hlen]
  dsimp only
  omega

end

end

end ReplaceAfter

/-- The entries from the first one that the log lacks on, written after those before it. -/
theorem adopts_replaceAfter (hcons : args.Consecutive)
    (hsnap : a.snapshot.index ≤ args.prevLogIndex) {xs ys : List RaftLogEntry}
    (hes : args.entries = xs ++ e :: ys) (hxs : ∀ x ∈ xs, a.Has x) (he : ¬ a.Has e) (o : Int)
    (hlast : args.prevLogIndex + xs.length ≤ a.lastIndex) :
    a.Adopts args (a.replaceAfter (args.prevLogIndex + xs.length) (place o (e :: ys))) := by
  have hlo : a.snapshot.index ≤ args.prevLogIndex + xs.length := by omega
  have hindex := hcons.index_append hes
  refine ⟨rfl, fun k hk => entryAt_replaceAfter_le hlo hlast (by omega), ?_, ?_, .inr ⟨?_, ?_⟩⟩
  · intro d hd hhas
    refine entryAt_replaceAfter_le hlo hlast ?_
    -- An entry at or after the one that is lacking does not have all before it in the log.
    by_contra hgt
    exact he (hhas e (by rw [hes]; simp) (by omega))
  · intro d hd hlacks
    obtain ⟨i, hi⟩ := mem_iff_getElem?.mp hd
    have hdi := hcons.index_eq hi
    have hle : xs.length ≤ i := by
      by_contra hlt
      refine hlacks fun c hc hcd => ?_
      obtain ⟨j, hj⟩ := mem_iff_getElem?.mp hc
      have hcj := hcons.index_eq hj
      rw [hes, getElem?_append_left (by omega)] at hj
      exact hxs c (mem_of_getElem? hj)
    rw [hes, getElem?_append_right hle] at hi
    obtain ⟨x, hx, hcopy⟩ := place_copyOf o hi
    refine ⟨x, ?_, hcopy⟩
    have hat : d.index = args.prevLogIndex + xs.length + 1 + (i - xs.length) := by omega
    rw [hat, entryAt_replaceAfter hlo hlast, hx]
  · exact ⟨e, by rw [hes]; simp, he⟩
  · rw [lastIndex_replaceAfter hlo hlast, length_place, hes, length_append, Nat.add_assoc]

end AbstractLog

namespace RaftLog

variable {r r' : RaftLog} {a : AbstractLog}

theorem Refines.has_iff (h : r.Refines a) (hi : r.snapshotIndex < e.index) :
    a.Has e ↔ r.holds e.index e.term := by
  have hne : e.index ≠ a.snapshot.index := by rw [← h.snapshotIndex]; omega
  rw [h.holds_iff hi, AbstractLog.termAt, if_neg (by omega), if_neg hne]
  rfl

/-- The files that belong to a log. -/
def disk (r : RaftLog) : Disk :=
  { logs := r.log.segments.map Segment.file, metas := r.entries, snap := r.snapshotBase }

theorem stores_disk (r : RaftLog) : r.disk.Stores r := ⟨rfl, rfl, rfl⟩

/-- Entries that are appended to what is left of a log after a cut. -/
theorem Refines.append_cut {index : Nat} (h : r.Refines (a.step (.truncateFrom (index + 1))))
    {es : List RaftLogEntry} (hc : ∀ e ∈ es, 1 ≤ e.payload.header.recordCount) :
    (r.append none es).2.toBool ∧
      ∃ o, (r.append none es).1.Refines (a.replaceAfter index (place o es)) := by
  obtain ⟨pre, hlive, -⟩ := h.live
  have happ := (h.append r.stores_disk hc).1
  have hk : index + 1 - a.snapshot.index - 1 = index - a.snapshot.index := by omega
  simp only [AbstractLog.step, hk] at happ
  exact ⟨(hlive.append r.stores_disk hc).1, _, happ⟩

theorem Refines.truncateFrom_ok (h : r.Refines a) {index : Nat} (hlo : r.snapshotIndex < index)
    (hhi : index ≤ r.lastIndex) : ∃ r', r.truncateFrom index = .ok r' := by
  obtain ⟨pre, hlive, -⟩ := h.live
  obtain ⟨k, rfl⟩ : ∃ k, index = r.snapshotIndex + k + 1 :=
    ⟨index - r.snapshotIndex - 1, by omega⟩
  have hk : k < a.entries.length := by
    rw [RaftLog.lastIndex, hlive.entries, length_map] at hhi
    omega
  obtain ⟨-, -, -, -, r', -, -, -, -, hr', -⟩ := hlive.truncateFromOps_eq hk
  exact ⟨r', hr'⟩

/-- The loop brings the log in line with the message. -/
theorem Refines.appendEntriesFrom (h : r.Refines a)
    (hcons : args.Consecutive) (hc : ∀ e ∈ args.entries, 1 ≤ e.payload.header.recordCount)
    (hsnap : r.snapshotIndex ≤ args.prevLogIndex) (hreach : args.prevLogIndex ≤ r.lastIndex)
    {io : LogIo} (happend : io.appendFails = none) (htrunc : io.truncateFails = false) :
    (RaftNode.appendEntriesFrom r io args.entries).2 = true ∧
      ∃ a', (RaftNode.appendEntriesFrom r io args.entries).1.Refines a' ∧ a.Adopts args a' := by
  have hlive : ∀ e ∈ args.entries, r.snapshotIndex < e.index := by
    intro e he
    obtain ⟨i, hi⟩ := mem_iff_getElem?.mp he
    have := hcons.index_eq hi
    omega
  rcases r.holds_or_lacks args.entries with hall | ⟨xs, e, ys, hes, hxs, he⟩
  · rw [RaftNode.appendEntriesFrom_held hall]
    exact ⟨rfl, a, h, AbstractLog.adopts_self fun e he => (h.has_iff (hlive e he)).mpr (hall e he)⟩
  have hmem : e ∈ args.entries := by rw [hes]; simp
  have hindex := hcons.index_append hes
  have hlo := hlive e hmem
  have hbefore := RaftNode.le_lastIndex_of_holds hcons hreach hes hxs
  have hxs' : ∀ x ∈ xs, a.Has x := fun x hx =>
    (h.has_iff (hlive x (by rw [hes]; exact mem_append_left _ hx))).mpr (hxs x hx)
  -- What the rest of the message is appended to.
  obtain ⟨cut, hcut, hout⟩ : ∃ cut : RaftLog, cut.Refines (a.step (.truncateFrom e.index)) ∧
      RaftNode.appendEntriesFrom r io (e :: ys) =
        ((cut.append none (e :: ys)).1, (cut.append none (e :: ys)).2.toBool) := by
    rcases RaftNode.appendEntriesFrom_lacks io ys he rfl with
      ⟨cut, hcut, hout⟩ | ⟨-, hle, hfails | ⟨err, herr⟩⟩
    · rw [happend] at hout
      refine ⟨cut, ?_, hout⟩
      rcases hcut with ⟨hgt, rfl⟩ | ⟨-, -, hr'⟩
      · exact h.truncateFrom (truncateFrom_of_gt (by omega) hgt)
      · exact h.truncateFrom hr'
    · rw [htrunc] at hfails
      cases hfails
    · obtain ⟨r', hr'⟩ := h.truncateFrom_ok hlo hle
      rw [herr] at hr'
      cases hr'
  rw [show e.index = args.prevLogIndex + xs.length + 1 by omega] at hcut
  obtain ⟨hok, o, hrefines⟩ := hcut.append_cut
    (fun x hx => hc x (by rw [hes]; exact mem_append_right _ hx))
  rw [hes, RaftNode.appendEntriesFrom_append hxs, hout]
  refine ⟨hok, _, hrefines, AbstractLog.adopts_replaceAfter hcons ?_ hes hxs' ?_ o ?_⟩
  · rw [← h.snapshotIndex]; exact hsnap
  · rw [h.has_iff hlo]; exact he
  · rw [← h.lastIndex]; exact hbefore

end RaftLog

namespace RaftNode

variable {n : RaftNode} {a : AbstractLog} {io : LogIo} {now : Int}

/-- The log after an `AppendEntries` whose entries follow one another and whose previous entry is
not below the snapshot, when no file operation fails: a refused message changes nothing, an
accepted one is adopted. -/
theorem onAppendEntries_adopts (h : n.log.Refines a) (hcons : args.Consecutive)
    (hc : ∀ e ∈ args.entries, 1 ≤ e.payload.header.recordCount)
    (hsnap : n.log.snapshotIndex ≤ args.prevLogIndex) (happend : io.appendFails = none)
    (htrunc : io.truncateFails = false) :
    let out := n.onAppendEntries io now args
    (out.2.success = false → out.1.log = n.log) ∧
    (out.2.success = true → ∃ a', out.1.log.Refines a' ∧ a.Adopts args a') := by
  dsimp only
  by_cases hacc : n.Accepts args
  · obtain ⟨hlog, hsuccess, -⟩ := onAppendEntries_of_accepts hacc io now
    obtain ⟨hok, a', hrefines, hadopts⟩ :=
      h.appendEntriesFrom hcons hc hsnap hacc.reaches happend htrunc
    rw [hsuccess, hlog, hok]
    exact ⟨nofun, fun _ => ⟨a', hrefines, hadopts⟩⟩
  · obtain ⟨hlog, hsuccess, -⟩ := onAppendEntries_of_not_accepts hacc io now
    rw [hsuccess]
    exact ⟨fun _ => hlog, nofun⟩

/-- An entry of one record. -/
def entryOf (term index : Nat) (x : UInt8) : RaftLogEntry :=
  { term, index, payload := { header := { recordCount := 1 }, records := [x] } }

/-- Node 1 of three in term 1, with the entries in its log. -/
def follower (es : List RaftLogEntry) : RaftNode :=
  { RaftNode.create 1 [2, 3] ((RaftLog.create {}).append none es).1 {} [] with
    persistent := { currentTerm := 1 } }

theorem refines_follower {es : List RaftLogEntry}
    (hc : ∀ e ∈ es, 1 ≤ e.payload.header.recordCount) :
    (follower es).log.Refines (AbstractLog.step {} (.append es)) :=
  ((refines_create {}).append (Disk.fresh_stores {}) hc).1

/-- The follower has both entries and one more; the leader's second entry is of a later term. -/
theorem onAppendEntries_adopts_conflict :
    let n := follower [entryOf 1 1 10, entryOf 1 2 20, entryOf 1 3 30]
    let args : AppendEntriesArgs :=
      { term := 2, leaderId := 2, entries := [entryOf 1 1 10, entryOf 2 2 21] }
    (n.onAppendEntries {} 0 args).2.success = true ∧
      ∃ a', (n.onAppendEntries {} 0 args).1.log.Refines a' ∧
        (AbstractLog.step {} (.append [entryOf 1 1 10, entryOf 1 2 20, entryOf 1 3 30])).Adopts
          args a' := by
  have hsuccess : ((follower [entryOf 1 1 10, entryOf 1 2 20, entryOf 1 3 30]).onAppendEntries {} 0
      { term := 2, leaderId := 2, entries := [entryOf 1 1 10, entryOf 2 2 21] }).2.success =
        true := by
    decide +kernel
  exact ⟨hsuccess, (onAppendEntries_adopts (refines_follower (by decide)) (by decide) (by decide)
    (by decide) rfl rfl).2 hsuccess⟩

/-- The records of the entry at an index. -/
def recordsAt (log : RaftLog) (index : Nat) : Expected (List (List UInt8)) :=
  (log.entriesFrom index 1).map fun es => es.map fun e => e.payload.records

/-- An entry that the log has with the term of the message is removed and written again when the
message differs before it; and where nothing differs in term, it is the log's own entry that stays,
not the one of the message. -/
theorem same_term_rewritten :
    (let n := follower [entryOf 1 1 10, entryOf 3 2 20]
     let args : AppendEntriesArgs :=
       { term := 3, leaderId := 2, entries := [entryOf 2 1 11, entryOf 3 2 21] }
     args.Consecutive ∧ (n.onAppendEntries {} 0 args).2.success = true ∧ n.log.holds 2 3 ∧
       recordsAt n.log 2 = .ok [[20]] ∧
       recordsAt (n.onAppendEntries {} 0 args).1.log 2 = .ok [[21]]) ∧
    (let n := follower [entryOf 1 1 10]
     let args : AppendEntriesArgs := { term := 1, leaderId := 2, entries := [entryOf 1 1 11] }
     args.Consecutive ∧ (n.onAppendEntries {} 0 args).2.success = true ∧
       recordsAt (n.onAppendEntries {} 0 args).1.log 1 = .ok [[10]]) := by
  decide +kernel

/-! ## How far a follower commits -/

/-- After an accepted message the commit index stays within what the leader has confirmed, or where
it was, just when the leader's own commit index or the end of the follower's log does. A message
whose entries follow one another leaves the end of the log where it was if the log had them all. -/
theorem commitIndex_onAppendEntries_le_iff
    (hs : (n.onAppendEntries io now args).2.success = true) :
    let out := n.onAppendEntries io now args
    let bound := max n.commitIndex (args.prevLogIndex + args.entries.length)
    (out.1.commitIndex ≤ bound ↔ args.leaderCommit ≤ bound ∨ out.1.log.lastIndex ≤ bound) ∧
    (args.Consecutive → (out.1.log.lastIndex ≤ bound ↔
      n.log.lastIndex ≤ bound ∨ ∃ e ∈ args.entries, ¬ n.log.holds e.index e.term)) := by
  have hacc := accepts_of_success hs
  obtain ⟨hlog, hsuccess, hcommit⟩ := onAppendEntries_of_accepts hacc io now
  dsimp only
  rw [hs] at hsuccess
  rw [hlog, hcommit, ← hsuccess]
  constructor
  · by_cases hgt : args.leaderCommit > n.commitIndex
    · rw [if_pos ⟨rfl, hgt⟩]
      omega
    · rw [if_neg fun h => hgt h.2]
      omega
  · intro hcons
    rcases lastIndex_appendEntriesFrom hcons hacc.reaches hsuccess.symm with
      ⟨hall, hsame⟩ | ⟨hlacks, hend⟩
    · rw [hsame]
      refine ⟨.inl, fun h => h.resolve_right ?_⟩
      rintro ⟨e, he, hlacks⟩
      exact hlacks (hall e he)
    · rw [hend]
      exact ⟨fun _ => .inr hlacks, fun _ => by omega⟩

/-- The leader's entry is new to the follower. -/
theorem commitIndex_onAppendEntries_new :
    let n := follower [entryOf 1 1 10]
    let args : AppendEntriesArgs := { term := 1, leaderId := 2, prevLogIndex := 1, prevLogTerm := 1,
                                      entries := [entryOf 1 2 20], leaderCommit := 5 }
    (n.onAppendEntries {} 0 args).2.success = true ∧
      (n.onAppendEntries {} 0 args).1.commitIndex ≤ 2 := by
  have hs : ((follower [entryOf 1 1 10]).onAppendEntries {} 0
      { term := 1, leaderId := 2, prevLogIndex := 1, prevLogTerm := 1,
        entries := [entryOf 1 2 20], leaderCommit := 5 }).2.success = true := by decide +kernel
  have h := commitIndex_onAppendEntries_le_iff hs
  exact ⟨hs, h.1.mpr (.inr ((h.2 (by decide)).mpr (.inr (by decide))))⟩

/-- The follower has two entries of an old term behind the one that the leader confirms, and
commits them. -/
theorem commits_stale_tail :
    let n := follower [entryOf 1 1 10, entryOf 1 2 20, entryOf 1 3 30]
    let args : AppendEntriesArgs :=
      { term := 2, leaderId := 2, entries := [entryOf 1 1 10], leaderCommit := 3 }
    args.Consecutive ∧ (n.onAppendEntries {} 0 args).2.success = true ∧ n.commitIndex = 0 ∧
      args.prevLogIndex + args.entries.length = 1 ∧
      (n.onAppendEntries {} 0 args).1.commitIndex = 3 := by
  decide +kernel

/-! ## Messages that arrive again -/

/-- The follower whose log stands for `full` has had all of the message: its entries and the one
before them, some of them perhaps inside its snapshot by now. -/
structure Redelivered (full : List LogEntry) (args : AppendEntriesArgs) : Prop where
  consecutive : args.Consecutive
  prev : args.prevLogIndex = 0 ∧ args.prevLogTerm = 0 ∨ 0 < args.prevLogIndex ∧
    (full[args.prevLogIndex - 1]?).map LogEntry.term = some args.prevLogTerm
  entries : ∀ e ∈ args.entries, (full[e.index - 1]?).map LogEntry.term = some e.term

variable {full : List LogEntry} {k : Nat}

/-- An entry at or above the snapshot is found in the log. -/
theorem Redelivered.holds_iff (hd : Redelivered full args) (h : n.log.View full)
    (he : e ∈ args.entries) : n.log.holds e.index e.term ↔ n.log.snapshotIndex ≤ e.index := by
  obtain ⟨x, hx, hterm⟩ := Option.map_eq_some_iff.mp (hd.entries e he)
  obtain ⟨i, hi⟩ := List.mem_iff_getElem?.mp he
  have hindex := hd.consecutive.index_eq hi
  have hlt := (List.getElem?_eq_some_iff.mp hx).1
  rw [RaftLog.holds_iff, h.termAt_iff, h.lastIndex]
  constructor
  · rintro ⟨-, ⟨h0, -⟩ | ⟨-, hle, -⟩⟩
    · omega
    · exact hle
  · intro hle
    exact ⟨by omega, .inr ⟨by omega, hle, x, hx, hterm⟩⟩

theorem Redelivered.accepts_iff (hd : Redelivered full args) (h : n.log.View full)
    (hterm : args.term = n.currentTerm) :
    n.Accepts args ↔ n.log.snapshotIndex ≤ args.prevLogIndex ∨ args.prevLogIndex = 0 := by
  have hacc : n.Accepts args ↔ args.prevLogIndex ≤ n.log.lastIndex ∧
      n.log.termAt args.prevLogIndex = .ok args.prevLogTerm :=
    ⟨fun hacc => ⟨hacc.reaches, hacc.prev⟩, fun hp => ⟨by omega, hp.1, hp.2⟩⟩
  rw [hacc, h.termAt_iff, h.lastIndex]
  rcases hd.prev with ⟨h0, ht0⟩ | ⟨hpos, hprev⟩
  · exact ⟨fun _ => .inr h0, fun _ => ⟨by omega, .inl ⟨h0, ht0⟩⟩⟩
  · obtain ⟨x, hx, hxt⟩ := Option.map_eq_some_iff.mp hprev
    have hlt := (List.getElem?_eq_some_iff.mp hx).1
    constructor
    · rintro ⟨-, ⟨h0, -⟩ | ⟨-, hle, -⟩⟩
      · exact .inr h0
      · exact .inl hle
    · rintro (hle | h0)
      · exact ⟨by omega, .inr ⟨hpos, hle, x, hx, hxt⟩⟩
      · omega

/-- A message of the current term that brings nothing new never changes the log. It is answered
with success just when its previous entry is the sentinel or not below the snapshot, and none of
its entries is below the snapshot either. -/
theorem onAppendEntries_redelivered_iff (h : n.log.View full) (hterm : args.term = n.currentTerm)
    (hd : Redelivered full args) (io : LogIo) (now : Int) :
    let out := n.onAppendEntries io now args
    out.1.log = n.log ∧
    (out.2.success = true ↔
      (n.log.snapshotIndex ≤ args.prevLogIndex ∨ args.prevLogIndex = 0) ∧
        ∀ e ∈ args.entries, n.log.snapshotIndex ≤ e.index) := by
  dsimp only
  rw [← hd.accepts_iff h hterm]
  by_cases hacc : n.Accepts args
  · obtain ⟨hlog, hsuccess, -⟩ := onAppendEntries_of_accepts hacc io now
    rw [hlog, hsuccess]
    rcases n.log.holds_or_lacks args.entries with hall | ⟨xs, e, ys, hes, hxs, he⟩
    · rw [appendEntriesFrom_held hall]
      exact ⟨rfl, fun _ => ⟨hacc, fun e he => (hd.holds_iff h he).mp (hall e he)⟩, fun _ => rfl⟩
    have hmem : e ∈ args.entries := by rw [hes]; simp
    have hlow := (hd.holds_iff h hmem).not.mp he
    obtain ⟨x, hx, -⟩ := Option.map_eq_some_iff.mp (hd.entries e hmem)
    have hlt := (List.getElem?_eq_some_iff.mp hx).1
    have hindex := hd.consecutive.index_append hes
    -- The entry is inside the snapshot: the log reaches it, and refuses to be cut there.
    have hrefused : appendEntriesFrom n.log io (e :: ys) = (n.log, false) := by
      rcases appendEntriesFrom_lacks io ys he rfl with
        ⟨cut, ⟨hgt, -⟩ | ⟨hle, -, htrunc⟩, -⟩ | ⟨hout, -⟩
      · rw [h.lastIndex] at hgt
        omega
      · exact absurd (RaftLog.lastIndex_truncateFrom hle htrunc).1 (by omega)
      · exact hout
    rw [hes, appendEntriesFrom_append hxs, hrefused, ← hes]
    exact ⟨rfl, nofun, fun hall => absurd (hall.2 e hmem) hlow⟩
  · obtain ⟨hlog, hsuccess, -⟩ := onAppendEntries_of_not_accepts hacc io now
    rw [hsuccess]
    exact ⟨hlog, nofun, fun hall => absurd hall.1 hacc⟩

/-- The same node after a compaction up to index `k`. -/
def compacted (es : List RaftLogEntry) (k : Nat) : RaftNode :=
  match (follower es).log.compactTo k with
  | .ok log => (follower es).setLog log
  | .error _ => follower es

theorem view_compacted {es : List RaftLogEntry}
    (hc : ∀ e ∈ es, 1 ≤ e.payload.header.recordCount) (hk : k ≤ es.length) :
    (compacted es k).log.View (place 0 es) := by
  obtain ⟨pre, hlive⟩ := (view_create {}).live
  obtain ⟨j, -, hview, -, hj⟩ := (view_create {}).append none hc
  rw [hj (hlive.append (Disk.fresh_stores {}) hc).1, take_length] at hview
  obtain ⟨log, hlog, hview', -⟩ := hview.compactTo (k := k) (by
    rw [nil_append, length_place]
    exact hk)
  have hnode : compacted es k = (follower es).setLog log := by
    unfold compacted
    rw [show (follower es).log.compactTo k = .ok log from hlog]
  rw [hnode]
  exact hview'

/-- The last entry arrives again after the others were compacted. -/
theorem onAppendEntries_redelivered_last :
    let n := compacted [entryOf 1 1 10, entryOf 1 2 20, entryOf 1 3 30] 2
    let args : AppendEntriesArgs :=
      { term := 1, leaderId := 2, prevLogIndex := 2, prevLogTerm := 1, entries := [entryOf 1 3 30] }
    n.log.snapshotIndex = 2 ∧ (n.onAppendEntries {} 0 args).1.log = n.log ∧
      (n.onAppendEntries {} 0 args).2.success = true := by
  have hview : (compacted [entryOf 1 1 10, entryOf 1 2 20, entryOf 1 3 30] 2).log.View
      (place 0 [entryOf 1 1 10, entryOf 1 2 20, entryOf 1 3 30]) :=
    view_compacted (by decide) (by decide)
  have h := onAppendEntries_redelivered_iff hview (by decide +kernel)
    (⟨by decide, by decide, by decide⟩ : Redelivered _
      { term := 1, leaderId := 2, prevLogIndex := 2, prevLogTerm := 1,
        entries := [entryOf 1 3 30] }) {} 0
  exact ⟨by decide +kernel, h.1, h.2.mpr (by decide +kernel)⟩

/-- A message that is older than the compaction is refused, with its previous entry inside the
snapshot or with the sentinel before its entries. -/
theorem redelivery_refused :
    let es := [entryOf 1 1 10, entryOf 1 2 20, entryOf 1 3 30]
    ∀ args ∈ [{ term := 1, leaderId := 2, prevLogIndex := 1, prevLogTerm := 1,
                entries := es.drop 1 },
        ({ term := 1, leaderId := 2, entries := es } : AppendEntriesArgs)],
      (compacted es 2).log.View (place 0 es) ∧ args.term = (compacted es 2).currentTerm ∧
      Redelivered (place 0 es) args ∧
      ((compacted es 2).onAppendEntries {} 0 args).2.success = false := by
  intro es args hargs
  have hview : (compacted es 2).log.View (place 0 es) := view_compacted (by decide) (by decide)
  simp only [List.mem_cons, List.not_mem_nil, or_false] at hargs
  rcases hargs with rfl | rfl
  · exact ⟨hview, by decide +kernel, ⟨by decide, by decide, by decide⟩, by decide +kernel⟩
  · exact ⟨hview, by decide +kernel, ⟨by decide, by decide, by decide⟩, by decide +kernel⟩

/-! ## What a leader commits -/

/-- The voters known to have the entry at `k`: this node, by its own log, and the voting peers. -/
def holders (n : RaftNode) (k : Nat) : Nat :=
  (if k ≤ n.log.lastIndex then 1 else 0) +
    n.peers.countP fun peer => n.isVoter peer && decide (k ≤ n.matchIndex peer)

/-- The entry at `k` may be committed: it is not yet, it is of the leader's term and a strict
majority of the voters has it. -/
structure Committable (n : RaftNode) (k : Nat) : Prop where
  above : n.commitIndex < k
  majority : n.hasMajority (n.holders k)
  term : n.log.termAt k = .ok n.currentTerm

section

variable (hv : n.isVoter n.self)

include hv

theorem countP_voterMatches (k : Nat) :
    n.voterMatches.countP (fun m => decide (k ≤ m)) = n.holders k := by
  unfold voterMatches holders
  rw [if_pos hv, countP_append, countP_map, countP_filter]
  congr 1
  · simp only [countP_singleton, decide_eq_true_eq]
  · refine countP_congr fun peer _ => ?_
    simp [and_comm]

theorem length_voterMatches : n.voterMatches.length = n.clusterSize := by
  unfold voterMatches clusterSize voters
  rw [if_pos hv, filter_cons_of_pos hv, length_append, length_map,
    length_singleton, length_cons, Nat.add_comm]

/-- The index that `advance_commit_index` looks at is the highest one that a majority has. -/
theorem hasMajority_holders_iff (hk : 0 < k) :
    n.hasMajority (n.holders k) ↔
      k ≤ ((n.voterMatches.insertionSort (· ≥ ·))[
        (n.voterMatches.insertionSort (· ≥ ·)).length / 2]?).getD 0 := by
  rw [le_candidate_iff hk, countP_voterMatches hv, length_voterMatches hv, hasMajority,
    decide_eq_true_eq, Nat.mul_comm]

end

/-- Nobody is known to have more than the leader. -/
theorem le_lastIndex_of_hasMajority
    (hmatch : ∀ peer ∈ n.peers, n.isVoter peer → n.matchIndex peer ≤ n.log.lastIndex)
    (h : n.hasMajority (n.holders k)) : k ≤ n.log.lastIndex := by
  by_contra hgt
  have hzero : n.holders k = 0 := by
    unfold holders
    rw [if_neg hgt, Nat.zero_add, countP_eq_zero]
    intro peer hpeer hk
    rw [Bool.and_eq_true, decide_eq_true_eq] at hk
    exact hgt (Nat.le_trans hk.2 (hmatch peer hpeer hk.1))
  rw [hzero, hasMajority, decide_eq_true_eq] at h
  omega

end RaftNode

theorem RaftLog.le_of_termAt_ok {r : RaftLog} {k t : Nat} (hk : 0 < k) (h : r.termAt k = .ok t) :
    r.snapshotIndex ≤ k := by
  by_contra hlt
  rw [termAt, if_neg (by omega), if_neg (by omega), if_pos (by omega)] at h
  cases h

theorem RaftLog.termAt_ok {r : RaftLog} {k : Nat} (hlo : r.snapshotIndex ≤ k)
    (hhi : k ≤ r.lastIndex) : ∃ t, r.termAt k = .ok t := by
  unfold termAt
  split
  · exact ⟨_, rfl⟩
  split
  · exact ⟨_, rfl⟩
  rw [if_neg (by omega)]
  have hslot : r.slotOf k < r.entries.length := by
    unfold slotOf
    unfold lastIndex at hhi
    omega
  rw [getElem?_eq_getElem hslot]
  exact ⟨_, rfl⟩

namespace RaftNode

variable {n : RaftNode}

/-- With terms that do not decrease and do not exceed its own, a leader that votes commits the
highest entry that it may, and nothing if there is none. It changes nothing else. -/
theorem advanceCommitIndex_isGreatest (hv : n.isVoter n.self)
    (hmono : ∀ i j t u, i ≤ j → n.log.termAt i = .ok t → n.log.termAt j = .ok u → t ≤ u)
    (hcur : ∀ i t, n.log.termAt i = .ok t → t ≤ n.currentTerm)
    (hmatch : ∀ peer ∈ n.peers, n.isVoter peer → n.matchIndex peer ≤ n.log.lastIndex) :
    (∃ k, n.advanceCommitIndex = n.setCommitIndex k ∧ IsGreatest {j | n.Committable j} k) ∨
      n.advanceCommitIndex = n ∧ ∀ j, ¬ n.Committable j := by
  have hmajority : ∀ k, 0 < k → (n.hasMajority (n.holders k) ↔ _) := fun k hk =>
    hasMajority_holders_iff hv hk
  unfold advanceCommitIndex
  dsimp only
  generalize ((n.voterMatches.insertionSort (· ≥ ·))[
    (n.voterMatches.insertionSort (· ≥ ·)).length / 2]?).getD 0 = candidate at hmajority ⊢
  split
  · rename_i hle
    refine .inr ⟨rfl, fun j hj => ?_⟩
    have := (hmajority j (Nat.zero_lt_of_lt hj.above)).mp hj.majority
    exact absurd hj.above (by omega)
  rename_i hgt
  have hgt := Nat.lt_of_not_le hgt
  have hcandidate := (hmajority candidate (by omega)).mpr (Nat.le_refl _)
  -- An entry that may be committed is not above the candidate, whose term is then the same.
  have hterm : ∀ j, n.Committable j → n.log.termAt candidate = .ok n.currentTerm := by
    intro j hj
    have hpos := Nat.zero_lt_of_lt hj.above
    have hle := (hmajority j hpos).mp hj.majority
    have hsnap := RaftLog.le_of_termAt_ok hpos hj.term
    obtain ⟨t, ht⟩ := RaftLog.termAt_ok (Nat.le_trans hsnap hle)
      (le_lastIndex_of_hasMajority hmatch hcandidate)
    have := hmono j candidate _ _ hle hj.term ht
    have := hcur candidate t ht
    rw [ht, show t = n.currentTerm by omega]
  split
  · rename_i ht
    refine .inl ⟨candidate, rfl, ⟨hgt, hcandidate, ht⟩, fun j hj => ?_⟩
    exact (hmajority j (Nat.zero_lt_of_lt hj.above)).mp hj.majority
  · rename_i hne
    exact .inr ⟨rfl, fun j hj => hne (hterm j hj)⟩

/-- A log whose entries are all of one term. -/
theorem termAt_compacted {es : List RaftLogEntry} {t : Nat}
    (hc : ∀ e ∈ es, 1 ≤ e.payload.header.recordCount) (hterm : ∀ x ∈ place 0 es, x.term = t)
    {i u : Nat} (h : (compacted es 0).log.termAt i = .ok u) : u = if i = 0 then 0 else t := by
  rcases (view_compacted hc (Nat.zero_le _)).termAt_iff.mp h with ⟨h0, hu⟩ | ⟨hpos, -, x, hx, rfl⟩
  · rw [if_pos h0, hu]
  · rw [if_neg (Nat.ne_of_gt hpos)]
    exact hterm x (mem_of_getElem? hx)

/-- Node 1 leads term 1 with two entries, of which node 2 has the first. -/
def leaderOfThree : RaftNode :=
  { compacted [entryOf 1 1 10, entryOf 1 2 20] 0 with
    role := .leader
    volatile := { matchIndex := fun peer => if peer = 2 then 1 else 0 } }

/-- It commits the first entry. -/
theorem advanceCommitIndex_leaderOfThree : leaderOfThree.advanceCommitIndex.commitIndex = 1 ∧
    IsGreatest {j | leaderOfThree.Committable j} 1 := by
  have hone : leaderOfThree.advanceCommitIndex.commitIndex = 1 := by decide +kernel
  refine ⟨hone, ?_⟩
  have hterms : ∀ i u, leaderOfThree.log.termAt i = .ok u → u = if i = 0 then 0 else 1 :=
    fun i u => termAt_compacted (by decide) (by decide)
  have hterm : leaderOfThree.currentTerm = 1 := by decide +kernel
  rcases advanceCommitIndex_isGreatest (n := leaderOfThree) (by decide +kernel)
    (fun i j t u hij ht hu => by
      rw [hterms i t ht, hterms j u hu]
      split_ifs <;> omega)
    (fun i t ht => by
      rw [hterms i t ht, hterm]
      split_ifs <;> omega)
    (by decide +kernel) with ⟨k, hk, hgreatest⟩ | ⟨hsame, -⟩
  · rw [hk] at hone
    cases hone
    exact hgreatest
  · rw [hsame] at hone
    exact absurd hone (by decide +kernel)

end RaftNode

end Nexus
