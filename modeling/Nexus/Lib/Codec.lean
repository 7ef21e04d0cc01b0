/-!
# Decoders that leave the rest unread

A decoder takes symbols from the front of its input. `Reads d xs a` says that it reads `xs` as `a`
whatever follows, and leaves what follows unread; the rules below follow the shape of a decoder, so
that a round trip is put together from those of the fields. `Refuses d xs e` says that it stops
there with an error.
-/

namespace Nexus.Lib

open List

variable {β ε α γ : Type}

def Reads (d : StateT (List β) (Except ε) α) (xs : List β) (a : α) : Prop :=
  ∀ rest, d.run (xs ++ rest) = .ok (a, rest)

def Refuses (d : StateT (List β) (Except ε) α) (xs : List β) (e : ε) : Prop :=
  ∀ rest, d.run (xs ++ rest) = .error e

/-- The next `n` symbols, if there are as many. -/
def takeExactly (e : ε) (n : Nat) : StateT (List β) (Except ε) { xs : List β // xs.length = n } :=
  fun input =>
    if h : n ≤ input.length then .ok (⟨input.take n, List.length_take_of_le h⟩, input.drop n)
    else .error e

/-- `n` values, one after another. -/
def readMany (d : StateT (List β) (Except ε) α) :
    (n : Nat) → StateT (List β) (Except ε) { as : List α // as.length = n }
  | 0 => pure ⟨[], rfl⟩
  | n + 1 => do
    let a ← d
    let as ← readMany d n
    return ⟨a :: as.1, by rw [List.length_cons, as.2]⟩

namespace Reads

variable {d : StateT (List β) (Except ε) α} {xs ys : List β} {a : α}
  {f : α → StateT (List β) (Except ε) γ} {n : Nat}

theorem bind {c : γ} (hd : Reads d xs a) (hf : Reads (f a) ys c) :
    Reads (d >>= f) (xs ++ ys) c := by
  intro rest
  rw [StateT.run_bind, append_assoc, hd]
  exact hf rest

theorem pure (a : α) : Reads (Pure.pure a : StateT (List β) (Except ε) α) [] a := fun _ => rfl

/-- Nothing is left for the rest of the decoder to read. -/
theorem bind_nil {c : γ} (hd : Reads d xs a) (hf : Reads (f a) [] c) : Reads (d >>= f) xs c := by
  rw [← append_nil xs]
  exact hd.bind hf

/-- The last field of a value. -/
theorem last (hd : Reads d xs a) (g : α → γ) : Reads (d >>= fun x => Pure.pure (g x)) xs (g a) := by
  intro rest
  rw [StateT.run_bind, hd]
  rfl

theorem takeExactly (e : ε) (h : xs.length = n) :
    Reads (takeExactly e n) xs ⟨xs, h⟩ := by
  subst h
  intro rest
  have hle : xs.length ≤ (xs ++ rest).length := by simp
  simp only [Lib.takeExactly, StateT.run, dif_pos hle, take_left, drop_left]

theorem many {encode : α → List β} {as : List α} (h : ∀ a ∈ as, Reads d (encode a) a)
    (hn : as.length = n) : Reads (readMany d n) (as.flatMap encode) ⟨as, hn⟩ := by
  subst hn
  induction as with
  | nil => exact fun _ => rfl
  | cons a as ih =>
    have hhead := h a mem_cons_self
    have htail := ih fun x hx => h x (mem_cons_of_mem a hx)
    rw [flatMap_cons]
    exact hhead.bind (htail.last _)

/-- What is read first is fine, and what comes then is not. -/
theorem refuses {e : ε} (hd : Reads d xs a) (hf : Refuses (f a) ys e) :
    Refuses (d >>= f) (xs ++ ys) e := by
  intro rest
  rw [StateT.run_bind, append_assoc, hd]
  exact hf rest

theorem refuses_nil {e : ε} (hd : Reads d xs a) (hf : Refuses (f a) [] e) :
    Refuses (d >>= f) xs e := by
  rw [← append_nil xs]
  exact hd.refuses hf

end Reads

theorem Refuses.bind {d : StateT (List β) (Except ε) α} {xs : List β} {e : ε} (h : Refuses d xs e)
    (f : α → StateT (List β) (Except ε) γ) (ys : List β) : Refuses (d >>= f) (xs ++ ys) e := by
  intro rest
  rw [StateT.run_bind, append_assoc, h]
  rfl

end Nexus.Lib
