import Mathlib.Data.Set.Basic
import Mathlib.Logic.Relation

/-!
# Mutual blocking

`waits a b` says that `a` cannot go on before `b` does. A set whose members all wait for members
of the set is stuck (`Blocked`). A relation that is not blocked becomes so by one new edge only if
the edge closes a path (`Blocked.of_added`), and then it does (`blocked_of_path`).
-/

namespace Nexus.Lib

open Relation

variable {α : Type} {waits waits' : α → α → Prop}

/-- Some members wait only for each other. -/
def Blocked (waits : α → α → Prop) : Prop :=
  ∃ S : Set α, S.Nonempty ∧ ∀ a ∈ S, ∃ b ∈ S, waits a b

theorem Blocked.mono (h : Blocked waits) (hle : ∀ a b, waits a b → waits' a b) :
    Blocked waits' := by
  obtain ⟨S, hne, hS⟩ := h
  refine ⟨S, hne, fun a ha => ?_⟩
  obtain ⟨b, hb, hab⟩ := hS a ha
  exact ⟨b, hb, hle a b hab⟩

/-- The members of a cycle are blocked. -/
theorem blocked_of_path {c t : α} (hct : waits c t) (hpath : ReflTransGen waits t c) :
    Blocked waits := by
  refine ⟨{ a | ReflTransGen waits t a ∧ ReflTransGen waits a c }, ⟨t, .refl, hpath⟩, ?_⟩
  rintro a ⟨hta, hac⟩
  rcases hac.cases_head with rfl | ⟨b, hab, hbc⟩
  · exact ⟨t, ⟨.refl, hta⟩, hct⟩
  · exact ⟨b, ⟨hta.tail hab, hbc⟩, hab⟩

/-- One new edge blocks only by closing a path. -/
theorem Blocked.of_added {c t : α} (hadd : ∀ a b, waits' a b → waits a b ∨ a = c ∧ b = t)
    (h : Blocked waits') : Blocked waits ∨ ReflTransGen waits t c := by
  obtain ⟨S, hne, hS⟩ := h
  by_cases hpath : ReflTransGen waits t c
  · exact .inr hpath
  refine .inl ?_
  by_cases hold : ∀ a ∈ S, ∃ b ∈ S, waits a b
  · exact ⟨S, hne, hold⟩
  -- somebody of the set waits by the new edge alone, so `t` is in the set
  have ht : t ∈ S := by
    push Not at hold
    obtain ⟨a, ha, hno⟩ := hold
    obtain ⟨b, hb, hab⟩ := hS a ha
    rcases hadd a b hab with hab | ⟨-, rfl⟩
    · exact absurd hab (hno b hb)
    · exact hb
  refine ⟨{ a | a ∈ S ∧ ReflTransGen waits t a }, ⟨t, ht, .refl⟩, ?_⟩
  rintro a ⟨ha, hta⟩
  obtain ⟨b, hb, hab⟩ := hS a ha
  rcases hadd a b hab with hab | ⟨rfl, -⟩
  · exact ⟨b, ⟨hb, hta.tail hab⟩, hab⟩
  · exact absurd hta hpath

end Nexus.Lib
