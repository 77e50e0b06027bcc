import Mathlib.Data.List.Basic

/-!
# Quoted tokens

A token that begins with a quote ends at the first occurrence of that quote
which no escape character stands before. What follows it is found by one scan
(`afterQuote`).

* `afterQuote_append` — what has ended ends at the same place with more text
  behind it, so that a token cut short has no end (`afterQuote_eq_none`);
* `exists_of_afterQuote` — the quote stands where the scan says.
-/

namespace GenericKernel.Lib

variable {α : Type} [DecidableEq α]

/-- The text after the closing quote, if there is one; `escaped`: an escape character stands
before the text. -/
def afterQuote (escape : α) (quote : List α) : Bool → List α → Option (List α)
  | _, [] => none
  | true, _ :: text => afterQuote escape quote false text
  | false, c :: text =>
      if c = escape then afterQuote escape quote true text
      else if quote <+: c :: text then some ((c :: text).drop quote.length)
      else afterQuote escape quote false text

variable {escape : α} {quote text : List α}

theorem exists_of_afterQuote {escaped : Bool} {rest : List α}
    (h : afterQuote escape quote escaped text = some rest) :
    ∃ body, text = body ++ quote ++ rest := by
  induction text generalizing escaped with
  | nil => cases escaped <;> cases h
  | cons c text ih =>
      cases escaped with
      | true =>
          obtain ⟨body, rfl⟩ := ih h
          exact ⟨c :: body, rfl⟩
      | false =>
          rw [afterQuote] at h
          split at h
          · obtain ⟨body, rfl⟩ := ih h
            exact ⟨c :: body, rfl⟩
          · split at h
            · rename_i hquote
              obtain ⟨tail, htail⟩ := hquote
              refine ⟨[], ?_⟩
              rw [← htail, List.drop_left, Option.some_inj] at h
              rw [← htail, ← h, List.nil_append]
            · obtain ⟨body, rfl⟩ := ih h
              exact ⟨c :: body, rfl⟩

theorem afterQuote_append {escaped : Bool} {rest : List α}
    (h : afterQuote escape quote escaped text = some rest) (more : List α) :
    afterQuote escape quote escaped (text ++ more) = some (rest ++ more) := by
  induction text generalizing escaped with
  | nil => cases escaped <;> cases h
  | cons c text ih =>
      cases escaped with
      | true => exact ih h
      | false =>
          rw [afterQuote] at h
          rw [List.cons_append, afterQuote]
          split at h
          · rename_i hescape
            rw [if_pos hescape]
            exact ih h
          · rename_i hescape
            rw [if_neg hescape]
            split at h
            · rename_i hquote
              have hlength := hquote.length_le
              rw [← List.cons_append, if_pos (hquote.trans (List.prefix_append ..)),
                List.drop_append_of_le_length hlength, ← Option.some_inj.mp h]
            · rename_i hquote
              -- the quote stands further on, so it does not reach into what follows
              obtain ⟨body, hbody⟩ := exists_of_afterQuote h
              have hlength : quote.length ≤ (c :: text).length := by
                rw [hbody]
                simp
                omega
              rw [if_neg, ih h]
              intro hlonger
              rw [← List.cons_append] at hlonger
              exact hquote (List.prefix_of_prefix_length_le hlonger (List.prefix_append ..) hlength)

/-- A token that ends with the text has no end in a shorter part of it. -/
theorem afterQuote_eq_none {escaped : Bool} {part : List α}
    (h : afterQuote escape quote escaped text = some []) (hpart : part <+: text)
    (hne : part ≠ text) : afterQuote escape quote escaped part = none := by
  obtain ⟨more, rfl⟩ := hpart
  cases hend : afterQuote escape quote escaped part with
  | none => rfl
  | some rest =>
      rw [afterQuote_append hend, Option.some_inj] at h
      rw [(List.append_eq_nil_iff.mp h).2, List.append_nil] at hne
      exact absurd rfl hne

end GenericKernel.Lib
