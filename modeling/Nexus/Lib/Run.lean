/-!
# Runs of a machine driven by events

A machine is a step function `step : σ → ε → σ`. A run is the list of its events, so "every run"
is "every list", and a state that a run reaches is the state after a prefix of it.

* `run`: the state after the events; `Along`: each event of the run meets a condition in the
  state where it happens.
* `run_invariant`: an invariant that each step keeps holds after every run.
* `run_simulation`: a ghost state that follows each step (`R s a`, the ghost only grows along
  `le`) follows every run.
-/

namespace Nexus.Lib

open List

variable {σ ε α : Type} {step : σ → ε → σ} {P Q : σ → ε → Prop} {es ds : List ε}

/-- The state after the events, in order. -/
def run (step : σ → ε → σ) (s : σ) (es : List ε) : σ := es.foldl step s

/-- Each event of the run meets `P` in the state where it happens. -/
def Along (step : σ → ε → σ) (P : σ → ε → Prop) : σ → List ε → Prop
  | _, [] => True
  | s, e :: es => P s e ∧ Along step P (step s e) es

@[simp] theorem run_nil (s : σ) : run step s [] = s := rfl

@[simp] theorem run_cons (s : σ) (e : ε) (es : List ε) :
    run step s (e :: es) = run step (step s e) es := rfl

theorem run_append (s : σ) (es fs : List ε) :
    run step s (es ++ fs) = run step (run step s es) fs := by
  simp [run, foldl_append]

/-- A run of two parts that is cut short ends in the first part, or after it. -/
theorem prefix_append_cases {fs : List ε} (h : ds <+: es ++ fs) :
    ds <+: es ∨ ∃ gs, gs ≠ [] ∧ gs <+: fs ∧ ds = es ++ gs := by
  rcases prefix_or_prefix_of_prefix h (prefix_append es fs) with hle | ⟨gs, rfl⟩
  · exact .inl hle
  rcases eq_nil_or_concat gs with rfl | ⟨gs', g, rfl⟩
  · rw [append_nil]
    exact .inl (prefix_refl es)
  · exact .inr ⟨_, by simp, (prefix_append_right_inj es).mp h, rfl⟩

theorem prefix_pair {e f : ε} (h : ds <+: [e, f]) (hne : ds ≠ []) :
    ds = [e] ∨ ds = [e, f] := by
  rcases prefix_cons_iff.mp h with rfl | ⟨es, rfl, hes⟩
  · exact absurd rfl hne
  rcases prefix_cons_iff.mp hes with rfl | ⟨fs, rfl, hfs⟩
  · exact .inl rfl
  · exact .inr (by rw [prefix_nil.mp hfs])

@[simp] theorem along_nil (s : σ) : Along step P s [] := trivial

@[simp] theorem along_cons (s : σ) (e : ε) (es : List ε) :
    Along step P s (e :: es) ↔ P s e ∧ Along step P (step s e) es := Iff.rfl

theorem along_append (s : σ) (es fs : List ε) :
    Along step P s (es ++ fs) ↔ Along step P s es ∧ Along step P (run step s es) fs := by
  induction es generalizing s with
  | nil => simp
  | cons e es ih => simp [ih, and_assoc]

theorem along_of_forall (h : ∀ s e, P s e) (s : σ) (es : List ε) : Along step P s es := by
  induction es generalizing s with
  | nil => trivial
  | cons e es ih => exact ⟨h s e, ih _⟩

instance decidableAlong [∀ s e, Decidable (P s e)] :
    ∀ (s : σ) (es : List ε), Decidable (Along step P s es)
  | _, [] => isTrue trivial
  | s, e :: es =>
    have := decidableAlong (step s e) es
    inferInstanceAs (Decidable (P s e ∧ Along step P (step s e) es))

/-- An invariant that each step keeps, under its condition, holds after the run. -/
theorem run_invariant {I : σ → Prop} (hstep : ∀ s e, I s → P s e → I (step s e)) {s : σ}
    (hs : I s) (h : Along step P s es) : I (run step s es) := by
  induction es generalizing s with
  | nil => exact hs
  | cons e es ih => exact ih (hstep s e hs h.1) h.2

/-- A ghost that follows each step follows the run, and only grows along it: the ghost of every
state that the run passed through is below the last one. -/
theorem run_simulation {R : σ → α → Prop} {le : α → α → Prop} (hrefl : ∀ a, le a a)
    (htrans : ∀ a b c, le a b → le b c → le a c)
    (hstep : ∀ s e a, R s a → P s e → ∃ b, le a b ∧ R (step s e) b) {s : σ} {a : α} (hs : R s a)
    (h : Along step P s es) :
    ∃ b, le a b ∧ R (run step s es) b ∧ ∀ ds, ds <+: es → ∃ d, le d b ∧ R (run step s ds) d := by
  induction es generalizing s a with
  | nil =>
    refine ⟨a, hrefl a, hs, fun ds hds => ⟨a, hrefl a, ?_⟩⟩
    rw [prefix_nil.mp hds]
    exact hs
  | cons e es ih =>
    obtain ⟨b, hab, hb⟩ := hstep s e a hs h.1
    obtain ⟨c, hbc, hc, hpast⟩ := ih hb h.2
    refine ⟨c, htrans a b c hab hbc, hc, fun ds hds => ?_⟩
    rcases prefix_cons_iff.mp hds with rfl | ⟨ds', rfl, hds'⟩
    · exact ⟨a, htrans a b c hab hbc, hs⟩
    · exact hpast ds' hds'

end Nexus.Lib
