import Mathlib.Order.Bounds.Basic
import Mathlib.Data.List.Sort

/-!
# Handing out a set of numbers, least first

A state machine enumerates a set when each step answers with the least element
that is left and takes it away, and keeps answering that nothing is left once the
set is empty. Its answers are then determined by the set: they are the entries of
the ascending list of it (`Enumerates.output_eq`). Two machines that enumerate one
set agree, however they keep it.
-/

namespace GenericKernel.Lib

variable {σ β : Type}

/-- The answer to the call after `n` calls. -/
def output (step : σ → β × σ) (s : σ) (n : Nat) : β := (step ((fun t => (step t).2)^[n] s)).1

theorem output_succ (step : σ → β × σ) (s : σ) (n : Nat) :
    output step s (n + 1) = output step (step s).2 n := rfl

/-- `left s R` says that `R` is what the state `s` has left. -/
structure Enumerates (step : σ → β × σ) (emit : Option Nat → β) (left : σ → Set Nat → Prop) :
    Prop where
  next : ∀ s R, left s R →
    (R = ∅ ∧ (step s).1 = emit none ∧ left (step s).2 ∅) ∨
    ∃ a, IsLeast R a ∧ (step s).1 = emit (some a) ∧ left (step s).2 (R \ {a})

/-- The least element heads the ascending list. -/
theorem exists_cons_of_isLeast {R : Set Nat} {l : List Nat} {a : Nat} (ha : IsLeast R a)
    (hsorted : l.Pairwise (· < ·)) (hmem : ∀ b, b ∈ l ↔ b ∈ R) : ∃ l', l = a :: l' := by
  have hal := (hmem a).mpr ha.1
  cases l with
  | nil => simp at hal
  | cons b l =>
      rcases List.mem_cons.mp hal with rfl | hal
      · exact ⟨l, rfl⟩
      · have hle := ha.2 ((hmem b).mp (by simp))
        have hlt := (List.pairwise_cons.mp hsorted).1 a hal
        omega

/-- **The answers are the ascending list**, and nothing after it. -/
theorem Enumerates.output_eq {step : σ → β × σ} {emit : Option Nat → β}
    {left : σ → Set Nat → Prop} (h : Enumerates step emit left) (n : Nat) :
    ∀ {s : σ} {R : Set Nat} {l : List Nat}, left s R → l.Pairwise (· < ·) →
    (∀ a, a ∈ l ↔ a ∈ R) → output step s n = emit l[n]? := by
  induction n with
  | zero =>
      intro s R l hs hsorted hmem
      rcases h.next s R hs with ⟨rfl, hnone, _⟩ | ⟨a, ha, hsome, _⟩
      · obtain rfl : l = [] := List.eq_nil_iff_forall_not_mem.mpr fun a hal => (hmem a).mp hal
        exact hnone
      · obtain ⟨l, rfl⟩ := exists_cons_of_isLeast ha hsorted hmem
        exact hsome
  | succ n ih =>
      intro s R l hs hsorted hmem
      rw [output_succ]
      rcases h.next s R hs with ⟨rfl, _, hs'⟩ | ⟨a, ha, _, hs'⟩
      · obtain rfl : l = [] := List.eq_nil_iff_forall_not_mem.mpr fun a hal => (hmem a).mp hal
        exact ih hs' List.Pairwise.nil (by simp)
      · obtain ⟨l, rfl⟩ := exists_cons_of_isLeast ha hsorted hmem
        obtain ⟨hfirst, hsorted'⟩ := List.pairwise_cons.mp hsorted
        refine (ih hs' hsorted' fun c => ?_).trans (by simp)
        rw [Set.mem_sdiff, ← hmem c, Set.mem_singleton_iff, List.mem_cons]
        constructor
        · intro hc
          exact ⟨.inr hc, (hfirst c hc).ne'⟩
        · rintro ⟨rfl | hc, hne⟩
          · exact absurd rfl hne
          · exact hc

end GenericKernel.Lib
