import Mathlib.Data.List.Flatten
import Mathlib.Data.List.Infix

/-!
# Prefix codes

A code in which no word starts with another one. Every input is read in one way only: words as
long as there are any, and a rest that does not start with a word (`exists_parses`,
`Parses.unique`).
-/

namespace PrefixCode

variable {α β : Type*} {encode : α → List β} {input rest rest' : List β} {a b : α}
  {words words' : List α}

/-- No word starts with another one. -/
def PrefixFree (encode : α → List β) : Prop := ∀ a b, encode a <+: encode b → a = b

/-- The input is these words, and a rest that does not start with a word. -/
structure Parses (encode : α → List β) (input : List β) (words : List α) (rest : List β) :
    Prop where
  eq : input = words.flatMap encode ++ rest
  incomplete : ∀ a, ¬ encode a <+: rest

theorem PrefixFree.append_inj (h : PrefixFree encode) (heq : encode a ++ rest = encode b ++ rest') :
    a = b ∧ rest = rest' := by
  have hab : a = b := by
    rcases List.prefix_or_prefix_of_prefix ⟨rest, heq⟩ ⟨rest', rfl⟩ with hle | hle
    · exact h a b hle
    · exact (h b a hle).symm
  subst hab
  exact ⟨rfl, List.append_cancel_left heq⟩

/-- **There is one way to read an input.** -/
theorem Parses.unique (hfree : PrefixFree encode) (h : Parses encode input words rest)
    (h' : Parses encode input words' rest') : words = words' ∧ rest = rest' := by
  obtain ⟨heq, hrest⟩ := h
  obtain ⟨heq', hrest'⟩ := h'
  rw [heq] at heq'
  clear heq
  induction words generalizing words' with
  | nil =>
      cases words' with
      | nil => exact ⟨rfl, heq'⟩
      | cons b words' =>
          rw [List.flatMap_cons, List.append_assoc] at heq'
          exact absurd ⟨_, heq'.symm⟩ (hrest b)
  | cons a words ih =>
      cases words' with
      | nil =>
          rw [List.flatMap_cons, List.append_assoc] at heq'
          exact absurd ⟨_, heq'⟩ (hrest' a)
      | cons b words' =>
          rw [List.flatMap_cons, List.flatMap_cons, List.append_assoc, List.append_assoc] at heq'
          obtain ⟨rfl, htail⟩ := hfree.append_inj heq'
          obtain ⟨rfl, hsame⟩ := ih htail
          exact ⟨rfl, hsame⟩

/-- **There is a way to read every input**, if no word is empty. -/
theorem exists_parses (hne : ∀ a, encode a ≠ []) (input : List β) :
    ∃ words rest, Parses encode input words rest := by
  induction h : input.length using Nat.strong_induction_on generalizing input with
  | _ n ih =>
      by_cases hword : ∃ a, encode a <+: input
      · obtain ⟨a, tail, rfl⟩ := hword
        have hpos : 0 < (encode a).length := List.length_pos_iff.2 (hne a)
        rw [List.length_append] at h
        obtain ⟨words, rest, hparses⟩ := ih tail.length (by omega) tail rfl
        refine ⟨a :: words, rest, ?_, hparses.incomplete⟩
        rw [List.flatMap_cons, List.append_assoc, ← hparses.eq]
      · exact ⟨[], input, rfl, fun a ha => hword ⟨a, ha⟩⟩

end PrefixCode
