/-!
# Well-formed UTF-8

Bytes are well formed if they are the encoding of some characters. A byte below 128 is a character
of its own wherever it stands, so a text may be cut there (`WellFormed.cut`).
-/

namespace Nexus.Lib

open List

def WellFormed (b : List UInt8) : Prop := ∃ cs : List Char, b = cs.flatMap String.utf8EncodeChar

theorem WellFormed.append {a b : List UInt8} (ha : WellFormed a) (hb : WellFormed b) :
    WellFormed (a ++ b) := by
  obtain ⟨cs, rfl⟩ := ha
  obtain ⟨cs', rfl⟩ := hb
  exact ⟨cs ++ cs', flatMap_append.symm⟩

theorem wellFormed_encode (c : Char) : WellFormed (String.utf8EncodeChar c) := ⟨[c], by simp⟩

/-- One byte, or none below 128. -/
theorem utf8EncodeChar_cases (c : Char) :
    (∃ b, String.utf8EncodeChar c = [b]) ∨ ∀ b ∈ String.utf8EncodeChar c, 128 ≤ b.toNat := by
  unfold String.utf8EncodeChar
  dsimp only
  split
  · exact .inl ⟨_, rfl⟩
  right
  repeat' split
  all_goals
    intro b hb
    simp only [mem_cons, not_mem_nil, or_false] at hb
  · rcases hb with rfl | rfl <;> rw [UInt8.toNat_ofNat'] <;> omega
  · rcases hb with rfl | rfl | rfl <;> rw [UInt8.toNat_ofNat'] <;> omega
  · rcases hb with rfl | rfl | rfl | rfl <;> rw [UInt8.toNat_ofNat'] <;> omega

theorem WellFormed.cut {a b : List UInt8} {c : UInt8} (h : WellFormed (a ++ c :: b))
    (hc : c.toNat < 128) : WellFormed a ∧ WellFormed b := by
  obtain ⟨cs, hcs⟩ := h
  induction cs generalizing a with
  | nil => simp at hcs
  | cons ch cs ih =>
    rw [flatMap_cons] at hcs
    rcases append_eq_append_iff.mp hcs with ⟨m, hm, hrest⟩ | ⟨m, rfl, hrest⟩
    · cases m with
      | nil =>
        obtain ⟨ha, hb⟩ := ih (a := []) hrest
        rw [append_nil] at hm
        exact ⟨hm ▸ wellFormed_encode ch, hb⟩
      | cons x m =>
        obtain ⟨rfl, hb⟩ : c = x ∧ b = m ++ cs.flatMap String.utf8EncodeChar := by
          simpa using hrest
        rcases utf8EncodeChar_cases ch with ⟨y, hy⟩ | hhigh
        · obtain ⟨rfl, rfl⟩ : a = [] ∧ m = [] := by
            rw [hy] at hm
            have := congrArg length hm
            simp only [length_append, length_cons, length_nil] at this
            exact ⟨length_eq_zero_iff.mp (by omega), length_eq_zero_iff.mp (by omega)⟩
          exact ⟨⟨[], rfl⟩, cs, by simpa using hb⟩
        · have := hhigh c (by rw [hm]; simp)
          omega
    · obtain ⟨ha, hb⟩ := ih hrest.symm
      exact ⟨(wellFormed_encode ch).append ha, hb⟩

theorem WellFormed.of_ascii_append {a b : List UInt8} (h : WellFormed (a ++ b))
    (ha : ∀ c ∈ a, c.toNat < 128) : WellFormed b := by
  induction a with
  | nil => exact h
  | cons c a ih =>
    exact ih (WellFormed.cut (a := []) h (ha c mem_cons_self)).2 fun d hd => ha d (.tail _ hd)

/-- What is between two quotes, or other bytes below 128, anywhere in a text. -/
theorem WellFormed.between {s t : List UInt8} {c d : UInt8} (h : WellFormed s)
    (hin : c :: (t ++ [d]) <:+: s) (hc : c.toNat < 128) (hd : d.toNat < 128) : WellFormed t := by
  obtain ⟨a, b, rfl⟩ := hin
  rw [append_assoc, cons_append, append_assoc, singleton_append] at h
  exact ((h.cut hc).2.cut hd).1

end Nexus.Lib
