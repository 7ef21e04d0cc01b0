import Mathlib.Data.List.Induction
import Nexus.Storage.Crc32c

/-!
# The store of term and vote

`consensus/raft_state_store.cpp`: one record at the start of a file, with a CRC32C over what follows
it, that each `save` overwrites in place. A crash leaves the first bytes of the new record over the
old one.

* `crc32c_injective`: the CRC tells strings apart that differ in the last four bytes only.
* `eq_record_of_load`, `eq_record_of_front`: so `load` takes a torn record for that of a state only
  when it is that record, byte for byte.
-/

namespace Nexus.StateStore

open Lib List

variable {xs ys data : Bytes} {vote : Option Int32}

/-- `RaftPersistentState`, with the widths of its fields. -/
structure RaftPersistentState where
  currentTerm : Int64 := 0
  votedFor : Option Int32 := none
  deriving DecidableEq

def kRecordSize : Nat := 17

/-- Whether there is a vote, and for whom. -/
def voteBytes (vote : Option Int32) : Bytes :=
  storeLe 1 (if vote.isSome then 1 else 0) ++ storeLe 4 (vote.getD 0).toInt

/-- The fields that the CRC covers. -/
def payload (s : RaftPersistentState) : Bytes :=
  storeLe 8 s.currentTerm.toInt ++ voteBytes s.votedFor

def record (s : RaftPersistentState) : Bytes := storeLe 4 (crc32c (payload s)).toNat ++ payload s

def load (file : Bytes) : Expected RaftPersistentState :=
  if file.length = 0 then .ok {}
  else if file.length < kRecordSize then makeError .corrupt "raft-state: registro truncado"
  else if loadU 4 file 0 ≠ (crc32c (slice file 4 13)).toNat then
    makeError .corrupt "raft-state: CRC32C no casa"
  else
    .ok {
      currentTerm := Int64.ofInt (loadS 8 file 4)
      votedFor :=
        if loadU 1 file 12 ≠ 0 then some (Int32.ofInt (loadS 4 file 13)) else none }

/-- `write_at` at the start of the file. -/
def write (file data : Bytes) : Bytes := data ++ file.drop data.length

def save (file : Bytes) (s : RaftPersistentState) : Bytes := write file (record s)

/-- The file after the states were saved, from an empty one on. -/
def saved (ss : List RaftPersistentState) : Bytes := ss.foldl save []

/-- The file when the device has got the first `k` bytes of the record. -/
def torn (file : Bytes) (s : RaftPersistentState) (k : Nat) : Bytes :=
  write file ((record s).take k)

/-- Strings that differ in their last four bytes only have different CRCs. -/
theorem crc32c_injective {front : Bytes} (hx : xs.length = 4) (hy : ys.length = 4)
    (h : crc32c (front ++ xs) = crc32c (front ++ ys)) : xs = ys := by
  have hlen : xs.length = ys.length := hx.trans hy.symm
  have hburst := CrcRegister.burst_append front hlen
  rw [hx] at hburst
  by_contra hne
  refine crc32c_ne_of_burst ?_ (fun heq => hne (append_cancel_left heq)) hburst 0 h
  rw [length_append, length_append, hlen]

/-! ## Records -/

theorem length_voteBytes (vote : Option Int32) : (voteBytes vote).length = 5 := by
  simp [voteBytes]

theorem length_payload (s : RaftPersistentState) : (payload s).length = 13 := by
  simp [payload, length_voteBytes]

theorem length_record (s : RaftPersistentState) : (record s).length = kRecordSize := by
  simp [record, length_payload, kRecordSize]

theorem slice_record (s : RaftPersistentState) : slice (record s) 4 13 = payload s := by
  rw [record, slice_append_left _ _ _ _ (length_storeLe 4 _),
    take_of_length_le (Nat.le_of_eq (length_payload s))]

/-- What `load` makes of the bytes of a vote. -/
theorem vote_of_slice (h : slice data 12 5 = voteBytes vote) :
    (if loadU 1 data 12 ≠ 0 then some (Int32.ofInt (loadS 4 data 13)) else none) = vote := by
  have hflag : slice data 12 1 = storeLe 1 (if vote.isSome then 1 else 0) := by
    have := congrArg (take 1) h
    rw [slice, take_take] at this
    simpa [slice, voteBytes] using this
  have hwho : slice data 13 4 = storeLe 4 (vote.getD 0).toInt := by
    have := congrArg (drop 1) h
    rw [slice, drop_take, drop_drop] at this
    simpa [slice, voteBytes] using this
  rw [loadU, hflag, loadS, loadU, hwho, leValue_storeLe, Int.emod_bmod]
  cases vote with
  | none => rfl
  | some v =>
    refine (if_pos (show leValue (storeLe 1 1) ≠ 0 by decide)).trans ?_
    rw [show 256 ^ 4 = 4294967296 by norm_num, Option.getD_some, Int32.toInt_bmod,
      Int32.ofInt_toInt]

/-- A record that `load` accepts is that of the state it returns, if it has the bytes of a vote. -/
theorem eq_record_of_load {x : RaftPersistentState}
    (hlen : data.length = kRecordSize) (hvote : slice data 12 5 = voteBytes vote)
    (h : load data = .ok x) : data = record x := by
  unfold load at h
  rw [if_neg (by rw [hlen]; decide), if_neg (by rw [hlen]; decide)] at h
  split at h
  · cases h
  rename_i hcrc
  rw [← Except.ok.inj h, vote_of_slice hvote]
  rw [kRecordSize] at hlen
  have hterm : storeLe 8 (Int64.ofInt (loadS 8 data 4)).toInt = slice data 4 8 := by
    refine storeLe_leValue (length_slice (by omega)) _ ?_
    rw [Int64.toInt_ofInt, show Int64.size = 256 ^ 8 by decide, Int.bmod_emod, loadS,
      Int.bmod_emod, loadU]
  have hpayload : payload ⟨Int64.ofInt (loadS 8 data 4), vote⟩ = slice data 4 13 := by
    rw [payload, hterm, ← hvote, ← slice_add]
  have hfirst : storeLe 4 (crc32c (slice data 4 13)).toNat = slice data 0 4 := by
    refine storeLe_leValue (length_slice (by omega)) _ ?_
    rw [← not_not.mp hcrc, loadU]
  rw [record, hpayload, hfirst, ← slice_add, slice, drop_zero,
    take_of_length_le (by omega)]

theorem crc_record (s : RaftPersistentState) :
    loadU 4 (record s) 0 = (crc32c (payload s)).toNat := by
  have := @loadU_storeLe [] (payload s) 0 (crc32c (payload s)).toNat 4 rfl (UInt32.toNat_lt _)
  rwa [nil_append] at this

theorem slice_vote (s : RaftPersistentState) : slice (record s) 12 5 = voteBytes s.votedFor := by
  rw [record, payload, ← append_assoc, slice_append_left _ _ _ _ (by simp),
    take_of_length_le (Nat.le_of_eq (length_voteBytes _))]

theorem load_record (s : RaftPersistentState) : load (record s) = .ok s := by
  have hterm : loadS 8 (record s) 4 = s.currentTerm.toInt :=
    loadS_storeLe (length_storeLe 4 _) (by have := s.currentTerm.le_toInt; omega)
      (by have := s.currentTerm.toInt_lt; omega)
  unfold load
  rw [length_record, if_neg (by decide), if_neg (by decide), crc_record, slice_record,
    if_neg (fun h => h rfl), hterm, vote_of_slice (slice_vote s), Int64.ofInt_toInt]

/-- With the record's own CRC, term and flag, `load` accepts no vote but the record's. -/
theorem eq_record_of_front {s x : RaftPersistentState} (hlen : data.length = kRecordSize)
    (hfront : data.take 13 = (record s).take 13) (h : load data = .ok x) : data = record s := by
  have hcrc : loadU 4 data 0 = (crc32c (slice data 4 13)).toNat := by
    unfold load at h
    rw [if_neg (by rw [hlen]; decide), if_neg (by rw [hlen]; decide)] at h
    split at h
    · cases h
    · rename_i hcrc
      exact not_not.mp hcrc
  have hsame : loadU 4 data 0 = loadU 4 (record s) 0 := by
    rw [← loadU_take (n := 13) (by omega), hfront, loadU_take (by omega)]
  have hcovered : slice data 4 9 = slice (record s) 4 9 := by
    rw [← slice_take (n := 13) (by omega), hfront, slice_take (by omega)]
  rw [hsame, crc_record, slice_add data 4 9 4, hcovered, ← slice_record, slice_add _ 4 9 4] at hcrc
  have hlast := crc32c_injective (length_slice (Nat.le_of_eq (length_record s).symm))
    (length_slice (Nat.le_of_eq hlen.symm)) (UInt32.toNat_inj.mp hcrc)
  rw [← take_append_drop 13 data, ← take_append_drop 13 (record s), hfront]
  rw [slice, slice, take_of_length_le, take_of_length_le] at hlast
  · rw [hlast]
  · rw [length_drop, hlen]; decide
  · rw [length_drop, length_record]; decide

/-! ## Crashes -/

theorem saved_concat (ss : List RaftPersistentState) (s : RaftPersistentState) :
    saved (ss ++ [s]) = record s := by
  have hle : (saved ss).length ≤ kRecordSize := by
    induction ss using reverseRecOn with
    | nil => exact Nat.zero_le _
    | append_singleton ss t ih =>
      rw [saved, foldl_append]
      change (write (saved ss) (record t)).length ≤ _
      rw [write, length_append, length_drop, length_record]
      omega
  rw [saved, foldl_append]
  change write (saved ss) (record s) = _
  rw [write, drop_eq_nil_of_le (by rw [length_record]; exact hle), append_nil]

variable (old s : RaftPersistentState) {k : Nat}

theorem length_torn (k : Nat) : (torn (record old) s k).length = kRecordSize := by
  rw [torn, write, length_append, length_drop, length_take, length_record,
    length_record]
  omega

/-- The vote is the old one until the write gets there. -/
theorem slice_torn (hk : k ≤ 12) : slice (torn (record old) s k) 12 5 = voteBytes old.votedFor := by
  have hlen : ((record s).take k).length = k := by
    rw [length_take, length_record, Nat.min_eq_left (Nat.le_trans hk (by decide))]
  rw [← slice_vote, slice, slice, torn, write, drop_append, hlen, drop_drop,
    drop_eq_nil_of_le (Nat.le_trans (Nat.le_of_eq hlen) hk), nil_append,
    Nat.add_sub_cancel' hk]

/-- What comes before the vote is then the new one's. -/
theorem take_torn (hk : 12 < k) : (torn (record old) s k).take 13 = (record s).take 13 := by
  have hlen : 13 ≤ ((record s).take k).length := by
    rw [length_take, length_record, kRecordSize]
    omega
  rw [torn, write, take_append_of_le_length hlen, take_take, Nat.min_eq_left hk]

theorem load_torn_nil {s : RaftPersistentState} (h0 : torn [] s k ≠ [])
    (hs : torn [] s k ≠ record s) : ∃ e, load (torn [] s k) = .error e := by
  have htorn : torn [] s k = (record s).take k := by
    rw [torn, write, drop_nil, append_nil]
  rw [htorn] at h0 hs ⊢
  have hlt : ((record s).take k).length < kRecordSize := by
    by_contra hge
    rw [length_take, length_record] at hge
    exact hs (take_of_length_le (by rw [length_record]; omega))
  unfold load
  rw [if_neg (fun h => h0 (length_eq_zero_iff.mp h)), if_pos hlt]
  exact ⟨_, rfl⟩

/-- After a crash that leaves the first `k` bytes of a save in the file, `load` returns the last
state that was saved or the one that was being saved, exactly when what is in the file is the record
of one of the two. -/
theorem load_torn_iff (ss : List RaftPersistentState) (s : RaftPersistentState) (k : Nat) :
    (load (torn (saved ss) s k) = .ok (ss.getLast?.getD {}) ∨
      load (torn (saved ss) s k) = .ok s) ↔
    torn (saved ss) s k = saved ss ∨ torn (saved ss) s k = record s := by
  rcases List.eq_nil_or_concat ss with rfl | ⟨ss, old, rfl⟩
  · rw [show saved [] = [] from rfl, List.getLast?_nil, Option.getD_none]
    constructor
    · intro h
      by_contra hne
      obtain ⟨e, he⟩ := load_torn_nil (fun h0 => hne (.inl h0)) (fun hs => hne (.inr hs))
      rw [he] at h
      rcases h with h | h <;> cases h
    · rintro (h | h) <;> rw [h]
      · exact .inl rfl
      · exact .inr (load_record s)
  · rw [List.concat_eq_append, saved_concat, List.getLast?_concat, Option.getD_some]
    constructor
    · intro h
      rcases Nat.lt_or_ge 12 k with hk | hk
      · exact .inr (h.elim (eq_record_of_front (length_torn old s k) (take_torn old s hk))
          (eq_record_of_front (length_torn old s k) (take_torn old s hk)))
      · exact h.imp (eq_record_of_load (length_torn old s k) (slice_torn old s hk))
          (eq_record_of_load (length_torn old s k) (slice_torn old s hk))
    · rintro (h | h) <;> rw [h]
      · exact .inl (load_record old)
      · exact .inr (load_record s)

/-- A save that stops half way leaves a record that is neither the old nor the new one, or too short
a file: then there is no state to load any more. -/
theorem no_state_after_torn_save :
    load (torn (saved [{ currentTerm := 1, votedFor := some 1 }]) { currentTerm := 2 } 5) =
      makeError .corrupt "raft-state: CRC32C no casa" ∧
    load (torn (saved []) { currentTerm := 1 } 5) =
      makeError .corrupt "raft-state: registro truncado" := by
  decide +kernel

end Nexus.StateStore
