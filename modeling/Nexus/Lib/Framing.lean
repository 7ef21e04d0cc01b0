/-!
# Messages on a stream that comes in pieces

A message starts with a prefix of fixed length that tells its size (`Format`). The reader asks for
what is missing, first of the prefix and then of the message (`Reading`, `Format.feed`), and gets
any non-empty part of it (`Source`); the writer offers what is left, and any non-empty part of it is
taken (`Sink`).

* `Format.feed_part`: one piece, with `Reading.At` for where the reader is in a message.
* `Format.read_message`, `Format.read_cut`: a message is read whole, or the stream ends in it.
* `Format.readAll_cut`: the messages that a cut stream still holds, then nothing but the end.
* `sendAll_eq`: everything is sent, in order.
-/

namespace Nexus.Lib

open List

variable {β ε α γ : Type}

/-! ## The two ends -/

/-- The receiving end: what is still to come before the peer closes, and how much the transport
hands over at each receive (`pieces 0 + 1`, then `pieces 1 + 1`, …). -/
structure Source (β : Type) where
  data : List β
  pieces : Nat → Nat

/-- At most `want` symbols; none if the peer has closed. -/
def Source.recv (s : Source β) (want : Nat) : List β × Source β :=
  let n := min (s.pieces 0 + 1) want
  (s.data.take n, ⟨s.data.drop n, fun k => s.pieces (k + 1)⟩)

/-- The sending end: what the transport has taken so far, and how much it takes at each send. -/
structure Sink (β : Type) where
  sent : List β
  pieces : Nat → Nat

def Sink.send (s : Sink β) (data : List β) : Nat × Sink β :=
  let n := min (s.pieces 0 + 1) data.length
  (n, ⟨s.sent ++ data.take n, fun k => s.pieces (k + 1)⟩)

/-- The loop that offers what is left of `data` until all of it is taken. -/
def sendAll (closed : ε) (data : List β) (s : Sink β) : Except ε Unit × Sink β :=
  if _h : data = [] then (.ok (), s)
  else
    let taken := s.send data
    if _hzero : taken.1 = 0 then (.error closed, taken.2)
    else sendAll closed (data.drop taken.1) taken.2
termination_by data.length
decreasing_by
  have hpos := List.length_pos_iff.mpr _h
  have htaken : (s.send data).1 ≠ 0 := _hzero
  rw [List.length_drop]
  omega

theorem sendAll_eq (closed : ε) (data : List β) (s : Sink β) :
    ∃ pieces, sendAll closed data s = (.ok (), ⟨s.sent ++ data, pieces⟩) := by
  induction hn : data.length using Nat.strongRecOn generalizing data s with
  | _ n ih =>
    rw [sendAll]
    by_cases hnil : data = []
    · rw [dif_pos hnil, hnil, append_nil]
      exact ⟨s.pieces, rfl⟩
    · have hpos := length_pos_iff.mpr hnil
      have htaken : 0 < (s.send data).1 := by
        change 0 < min (s.pieces 0 + 1) data.length
        omega
      rw [dif_neg hnil]
      simp only [dif_neg (Nat.ne_of_gt htaken)]
      have hlen : (data.drop (s.send data).1).length < n := by
        rw [length_drop]
        omega
      obtain ⟨pieces, heq⟩ := ih _ hlen _ (s.send data).2 rfl
      have hsent : (s.send data).2.sent ++ data.drop (s.send data).1 = s.sent ++ data := by
        generalize hm : min (s.pieces 0 + 1) data.length = m
        simp only [Sink.send, hm, append_assoc, take_append_drop]
      exact ⟨pieces, by rw [heq, hsent]⟩

/-! ## The reader -/

/-- How a message is found on the stream: `totalOf` tells its size, prefix included, from the
prefix. -/
structure Format (β ε α : Type) where
  prefixLen : Nat
  totalOf : List β → Except ε Nat
  decode : List β → Except ε α

/-- Where the reader is: in the prefix, or in the rest of a message of a known size. -/
inductive Reading (β : Type) where
  | head (buf : List β)
  | body (total : Nat) (buf : List β)
  deriving DecidableEq

inductive Progress (β ε α : Type) where
  | more (r : Reading β)
  | done (result : Except ε α)

namespace Format

variable (F : Format β ε α)

/-- What the reader asks for. -/
def missing : Reading β → Nat
  | .head buf => F.prefixLen - buf.length
  | .body total buf => total - buf.length

def onBody (total : Nat) (buf : List β) : Progress β ε α :=
  if buf.length < total then .more (.body total buf) else .done (F.decode buf)

def onHead (buf : List β) : Progress β ε α :=
  if buf.length < F.prefixLen then .more (.head buf)
  else
    match F.totalOf buf with
    | .error e => .done (.error e)
    | .ok total => F.onBody total buf

/-- A piece has come in. -/
def feed (piece : List β) : Reading β → Progress β ε α
  | .head buf => F.onHead (buf ++ piece)
  | .body total buf => F.onBody total (buf ++ piece)

/-- The loop of the reader. -/
def read (eof : ε) (r : Reading β) (s : Source β) : Except ε α × Source β :=
  let got := s.recv (F.missing r)
  if _h : got.1 = [] then (.error eof, got.2)
  else
    match F.feed got.1 r with
    | .more r' => read eof r' got.2
    | .done result => (result, got.2)
termination_by s.data.length
decreasing_by
  have hlen : (s.recv (F.missing r)).1.length ≠ 0 := fun h0 => _h (List.length_eq_zero_iff.mp h0)
  change (s.data.drop _).length < _
  change (s.data.take _).length ≠ 0 at hlen
  rw [List.length_drop]
  rw [List.length_take] at hlen
  omega

/-- The results of `n` calls, one after another. -/
def readAll (eof : ε) : (n : Nat) → Source β → List (Except ε α)
  | 0, _ => []
  | n + 1, s =>
    let r := F.read eof (.head []) s
    r.1 :: readAll eof n r.2

/-! ## Messages -/

/-- `message` is read as `a`. -/
structure Frames (message : List β) (a : α) : Prop where
  prefixLen_pos : 0 < F.prefixLen
  prefixLen_le : F.prefixLen ≤ message.length
  totalOf : F.totalOf (message.take F.prefixLen) = .ok message.length
  decode : F.decode message = .ok a

/-- The reader has the first `k` symbols of `message`. -/
inductive At (message : List β) : Nat → Reading β → Prop where
  | head {k : Nat} (hk : k < F.prefixLen) : At message k (.head (message.take k))
  | body {k : Nat} (hk : F.prefixLen ≤ k) (hlt : k < message.length) :
      At message k (.body message.length (message.take k))

variable {F} {message : List β} {a : α} {k n : Nat} {r : Reading β}

theorem At.lt (h : F.Frames message a) (hr : F.At message k r) : k < message.length := by
  cases hr with
  | head hk => exact Nat.lt_of_lt_of_le hk h.prefixLen_le
  | body _ hlt => exact hlt

/-- The reader asks for something, and for nothing that is not of the message. -/
theorem At.missing (h : F.Frames message a) (hr : F.At message k r) :
    0 < F.missing r ∧ k + F.missing r ≤ message.length := by
  have hle := h.prefixLen_le
  cases hr with
  | head hk =>
    rw [Format.missing, length_take]
    omega
  | body hk hlt =>
    rw [Format.missing, length_take]
    omega

theorem take_append_drop_take (message : List β) (k n : Nat) :
    message.take k ++ (message.drop k).take n = message.take (k + n) := by
  rw [take_add]

/-- One piece of the message: the reader is further in it, or has read it. -/
theorem feed_part (h : F.Frames message a) (hr : F.At message k r) (hn : k + n ≤ k + F.missing r) :
    (k + n < message.length ∧
      ∃ r', F.feed ((message.drop k).take n) r = .more r' ∧ F.At message (k + n) r') ∨
    (k + n = message.length ∧ F.feed ((message.drop k).take n) r = .done (.ok a)) := by
  have hle := h.prefixLen_le
  have hmissing := (hr.missing h).2
  -- Once the prefix is there, the reader is in the body or has all of it.
  have hbody : F.prefixLen ≤ k + n →
      (k + n < message.length ∧
        ∃ r', F.onBody message.length (message.take (k + n)) = .more r' ∧
          F.At message (k + n) r') ∨
      (k + n = message.length ∧
        F.onBody message.length (message.take (k + n)) = .done (.ok a)) := by
    intro hprefix
    rw [onBody, length_take, Nat.min_eq_left (by omega)]
    by_cases hend : k + n < message.length
    · rw [if_pos hend]
      exact .inl ⟨hend, _, rfl, .body hprefix hend⟩
    · have heq : k + n = message.length := by omega
      rw [if_neg hend, heq, take_length, h.decode]
      exact .inr ⟨rfl, rfl⟩
  cases hr with
  | head hk =>
    rw [Format.missing, length_take] at hn hmissing
    rw [feed, take_append_drop_take, onHead, length_take, Nat.min_eq_left (by omega)]
    by_cases hlt : k + n < F.prefixLen
    · rw [if_pos hlt]
      exact .inl ⟨by omega, _, rfl, .head hlt⟩
    · have hk' : k + n = F.prefixLen := by omega
      rw [if_neg hlt, hk', h.totalOf]
      simp only
      rw [← hk']
      exact hbody (by omega)
  | body hk hlt =>
    rw [feed, take_append_drop_take]
    exact hbody (by omega)

/-- What a receive hands over, and what is left. -/
theorem recv_append {xs rest : List β} {pieces : Nat → Nat} {want : Nat} (hw : want ≤ xs.length) :
    Source.recv ⟨xs ++ rest, pieces⟩ want =
      (xs.take (min (pieces 0 + 1) want),
        ⟨xs.drop (min (pieces 0 + 1) want) ++ rest, fun k => pieces (k + 1)⟩) := by
  have hle : min (pieces 0 + 1) want ≤ xs.length := by omega
  rw [Source.recv]
  simp only [take_append_of_le_length hle, drop_append_of_le_length hle]

/-- A message is read whole, and nothing after it. -/
theorem read_message (h : F.Frames message a) (hr : F.At message k r) (eof : ε) (rest : List β)
    (pieces : Nat → Nat) :
    ∃ pieces', F.read eof r ⟨message.drop k ++ rest, pieces⟩ = (.ok a, ⟨rest, pieces'⟩) := by
  induction hn : message.length - k using Nat.strongRecOn generalizing k r pieces with
  | _ left ih =>
    obtain ⟨hpos, hmissing⟩ := hr.missing h
    have hlt := hr.lt h
    have hdrop : (message.drop k).length = message.length - k := length_drop
    rw [read, recv_append (by omega)]
    generalize hm : min (pieces 0 + 1) (F.missing r) = m
    have hpart : (message.drop k).take m ≠ [] := by
      rw [← length_pos_iff, length_take]
      omega
    simp only [dif_neg hpart, drop_drop]
    rcases feed_part h hr (n := m) (by omega) with ⟨hmore, r', hfeed, hr'⟩ | ⟨hend, hfeed⟩
    · rw [hfeed]
      exact ih _ (by omega) hr' _ rfl
    · rw [hfeed, hend, drop_length, nil_append]
      exact ⟨_, rfl⟩

/-- A stream that ends inside of a message. -/
theorem read_cut (h : F.Frames message a) (hr : F.At message k r) (eof : ε) {j : Nat}
    (hj : k + j < message.length) (pieces : Nat → Nat) :
    ∃ pieces', F.read eof r ⟨(message.drop k).take j, pieces⟩ = (.error eof, ⟨[], pieces'⟩) := by
  induction hn : message.length - k using Nat.strongRecOn generalizing k r j pieces with
  | _ left ih =>
    obtain ⟨hpos, hmissing⟩ := hr.missing h
    rw [read, Source.recv]
    generalize hm : min (pieces 0 + 1) (F.missing r) = m
    rw [take_take, drop_take, drop_drop]
    by_cases hzero : j = 0
    · simp only [hzero, Nat.min_zero, Nat.zero_sub, take_zero, dif_pos]
      exact ⟨_, rfl⟩
    · have hpart : (message.drop k).take (min m j) ≠ [] := by
        rw [← length_pos_iff, length_take, length_drop]
        omega
      simp only [dif_neg hpart]
      rcases feed_part h hr (n := min m j) (by omega) with ⟨hmore, r', hfeed, hr'⟩ | ⟨hend, _⟩
      · rw [hfeed]
        -- the piece may be all that is left of the stream
        have hdata : (message.drop (k + m)).take (j - m) =
            (message.drop (k + min m j)).take (j - m) := by
          by_cases hle : m ≤ j
          · rw [Nat.min_eq_left hle]
          · rw [show j - m = 0 by omega, take_zero, take_zero]
        simp only [hdata]
        exact ih _ (by omega) hr' (by omega) _ rfl
      · omega

/-- A stream that has ended. -/
theorem read_nil (eof : ε) (r : Reading β) (pieces : Nat → Nat) :
    ∃ pieces', F.read eof r ⟨[], pieces⟩ = (.error eof, ⟨[], pieces'⟩) := by
  rw [read, Source.recv]
  simp only [take_nil, drop_nil, dif_pos]
  exact ⟨_, rfl⟩

theorem readAll_nil (eof : ε) (n : Nat) (pieces : Nat → Nat) :
    F.readAll eof n ⟨[], pieces⟩ = replicate n (.error eof) := by
  induction n generalizing pieces with
  | zero => rfl
  | succ n ih =>
    obtain ⟨pieces', heq⟩ := read_nil (F := F) eof (.head []) pieces
    simp only [readAll, heq, ih, replicate_succ]

/-- What the `i`-th call gives on a stream of the messages `encode a` that is cut after `k` symbols:
the `i`-th message, if all of it is there. -/
def resultAt (eof : ε) (encode : γ → List β) (out : γ → α) (items : List γ) (k i : Nat) :
    Except ε α :=
  match items[i]? with
  | some a =>
    if ((items.take (i + 1)).flatMap encode).length ≤ k then .ok (out a) else .error eof
  | none => .error eof

theorem resultAt_succ (eof : ε) (encode : γ → List β) (out : γ → α) (a : γ) (items : List γ)
    (hk : (encode a).length ≤ k) (i : Nat) :
    resultAt eof encode out (a :: items) k (i + 1) =
      resultAt eof encode out items (k - (encode a).length) i := by
  have hiff : ((encode a).length + ((items.take (i + 1)).flatMap encode).length ≤ k) ↔
      ((items.take (i + 1)).flatMap encode).length ≤ k - (encode a).length := by omega
  simp only [resultAt, getElem?_cons_succ, take_succ_cons, flatMap_cons,
    length_append, hiff]

/-- Nothing comes after a message that is not whole. -/
theorem resultAt_short (eof : ε) (encode : γ → List β) (out : γ → α) (a : γ) (items : List γ)
    (hk : k < (encode a).length) (i : Nat) :
    resultAt eof encode out (a :: items) k i = .error eof := by
  have hnot : ¬ (encode a).length + ((items.take i).flatMap encode).length ≤ k := by omega
  simp only [resultAt, take_succ_cons, flatMap_cons, length_append, if_neg hnot]
  cases (a :: items)[i]? <;> rfl

theorem map_error_range {f : Nat → Except ε α} {eof : ε} (h : ∀ i, f i = .error eof) :
    replicate n (.error eof) = (range n).map f := by
  rw [map_congr_left fun i _ => h i, map_const', length_range]

/-- The messages that are whole, in order, and then the end of the stream. -/
theorem readAll_cut (eof : ε) {encode : γ → List β} {out : γ → α} {items : List γ}
    (h : ∀ a ∈ items, F.Frames (encode a) (out a)) (k n : Nat) (pieces : Nat → Nat) :
    F.readAll eof n ⟨(items.flatMap encode).take k, pieces⟩ =
      (range n).map (resultAt eof encode out items k) := by
  induction items generalizing k n pieces with
  | nil =>
    rw [flatMap_nil, take_nil, readAll_nil]
    exact map_error_range fun i => rfl
  | cons a items ih =>
    have ha := h a mem_cons_self
    have hstart : F.At (encode a) 0 (.head []) := .head ha.prefixLen_pos
    cases n with
    | zero => rfl
    | succ n =>
      rw [flatMap_cons, take_append]
      by_cases hk : (encode a).length ≤ k
      · obtain ⟨pieces', hread⟩ := read_message ha hstart eof
          ((items.flatMap encode).take (k - (encode a).length)) pieces
        rw [drop_zero] at hread
        have htail := ih (fun b hb => h b (mem_cons_of_mem a hb)) (k - (encode a).length) n
          pieces'
        have hzero : resultAt eof encode out (a :: items) k 0 = .ok (out a) := by
          simp [resultAt, hk]
        rw [take_of_length_le hk, range_succ_eq_map, map_cons, map_map, hzero]
        simp only [readAll, hread, htail]
        congr 1
        exact map_congr_left fun i _ => (resultAt_succ eof encode out a items hk i).symm
      · obtain ⟨pieces', hread⟩ := read_cut ha hstart eof (j := k) (by omega) pieces
        rw [drop_zero] at hread
        rw [Nat.sub_eq_zero_of_le (by omega), take_zero, append_nil]
        simp only [readAll, hread, readAll_nil]
        rw [← replicate_succ]
        exact map_error_range (resultAt_short eof encode out a items (by omega))

end Format

end Nexus.Lib
