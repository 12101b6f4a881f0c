/-! # Parts between separators

* `split`: the parts of a text between the occurrences of a character. There is always one part more
  than there are occurrences, so parts may be empty.
* `join`: the parts with the character between them.

The main statements say that `join` undoes `split`, and that no part has the separator in it.
-/

namespace CallTrace.Text
set_option autoImplicit false

def consFirst (c : Char) : List (List Char) → List (List Char)
  | [] => [[c]]
  | part :: parts => (c :: part) :: parts

def split (sep : Char) : List Char → List (List Char)
  | [] => [[]]
  | c :: cs => if c = sep then [] :: split sep cs else consFirst c (split sep cs)

def join (sep : Char) : List (List Char) → List Char
  | [] => []
  | [part] => part
  | part :: parts => part ++ sep :: join sep parts

theorem split_ne_nil (sep : Char) (cs : List Char) : split sep cs ≠ [] := by
  cases cs with
  | nil => simp [split]
  | cons c cs =>
    rw [split]
    split
    · simp
    · cases split sep cs <;> simp [consFirst]

theorem join_nil_cons (sep : Char) {parts : List (List Char)} (h : parts ≠ []) :
    join sep ([] :: parts) = sep :: join sep parts := by
  cases parts with
  | nil => exact absurd rfl h
  | cons part parts => rfl

theorem join_consFirst (sep c : Char) (parts : List (List Char)) :
    join sep (consFirst c parts) = c :: join sep parts := by
  match parts with
  | [] => rfl
  | [part] => rfl
  | part :: next :: parts => rfl

theorem join_split (sep : Char) (cs : List Char) : join sep (split sep cs) = cs := by
  induction cs with
  | nil => rfl
  | cons c cs ih =>
    by_cases h : c = sep
    · rw [split, if_pos h, join_nil_cons sep (split_ne_nil sep cs), ih, h]
    · rw [split, if_neg h, join_consFirst, ih]

theorem not_mem_of_mem_split (sep : Char) (cs : List Char) :
    ∀ part ∈ split sep cs, sep ∉ part := by
  induction cs with
  | nil => simp [split]
  | cons c cs ih =>
    by_cases h : c = sep
    · rw [split, if_pos h]
      intro part hp
      rcases List.mem_cons.1 hp with rfl | hp
      · simp
      · exact ih part hp
    · rw [split, if_neg h]
      cases hs : split sep cs with
      | nil => exact absurd hs (split_ne_nil sep cs)
      | cons first parts =>
        rw [hs] at ih
        intro part hp
        rcases List.mem_cons.1 hp with rfl | hp
        · intro hm
          rcases List.mem_cons.1 hm with rfl | hm
          · exact h rfl
          · exact ih first (List.mem_cons_self ..) hm
        · exact ih part (List.mem_cons_of_mem first hp)

end CallTrace.Text
