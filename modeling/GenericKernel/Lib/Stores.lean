import Mathlib.Data.List.Basic

/-!
# Byte stores

A memory is a function from addresses to bytes; `stored` performs a list of
stores. A location that no store goes to keeps its byte, and one to which all
stores agree holds what they say.
-/

namespace GenericKernel.Lib

structure Store where
  address : Nat
  value : UInt8

/-- The memory after the stores, in order. -/
def stored (memory : Nat → UInt8) (stores : List Store) : Nat → UInt8 :=
  stores.foldl (fun memory s a => if a = s.address then s.value else memory a) memory

variable {memory : Nat → UInt8} {stores : List Store} {a : Nat}

theorem stored_append {more : List Store} :
    stored (stored memory stores) more = stored memory (stores ++ more) :=
  (List.foldl_append ..).symm

theorem stored_of_forall_ne (h : ∀ s ∈ stores, s.address ≠ a) : stored memory stores a = memory a := by
  induction stores generalizing memory with
  | nil => rfl
  | cons s rest ih =>
      rw [stored, List.foldl_cons]
      refine (ih fun s hs => h s (List.mem_cons_of_mem _ hs)).trans ?_
      exact if_neg (Ne.symm (h s List.mem_cons_self))

/-- The byte of a location that all stores agree on. -/
theorem stored_of_forall {value : UInt8} (hagree : ∀ s ∈ stores, s.address = a → s.value = value)
    (hfirst : memory a = value ∨ ∃ s ∈ stores, s.address = a) : stored memory stores a = value := by
  induction stores generalizing memory with
  | nil => exact hfirst.resolve_right fun ⟨_, hs, _⟩ => nomatch hs
  | cons s rest ih =>
      rw [stored, List.foldl_cons]
      refine ih (fun s' hs' => hagree s' (List.mem_cons_of_mem _ hs')) ?_
      by_cases hhere : a = s.address
      · exact .inl ((if_pos hhere).trans (hagree s List.mem_cons_self hhere.symm))
      · rcases hfirst with hold | ⟨s', hs', haddress⟩
        · exact .inl ((if_neg hhere).trans hold)
        · refine .inr ⟨s', (List.mem_cons.mp hs').resolve_left ?_, haddress⟩
          rintro rfl
          exact hhere haddress.symm

end GenericKernel.Lib
