import Mathlib.Data.List.TakeWhile

/-!
# Runs at the start of a text

A run of characters of one sort ends where what follows does not start with that sort.
-/

namespace CircuitCode

variable {α : Type} {p : α → Bool} {taken rest : List α}

theorem takeWhile_append_of_head? (htaken : ∀ a ∈ taken, p a = true)
    (hrest : rest.head?.any p = false) : (taken ++ rest).takeWhile p = taken := by
  rw [List.takeWhile_append_of_pos htaken]
  cases rest with
  | nil => rw [List.takeWhile_nil, List.append_nil]
  | cons a rest => simp_all

theorem dropWhile_append_of_head? (htaken : ∀ a ∈ taken, p a = true)
    (hrest : rest.head?.any p = false) : (taken ++ rest).dropWhile p = rest := by
  rw [List.dropWhile_append_of_pos htaken]
  cases rest with
  | nil => rfl
  | cons a rest => simp_all

theorem dropWhile_of_head? (hrest : rest.head?.any p = false) : rest.dropWhile p = rest :=
  dropWhile_append_of_head? (List.forall_mem_nil _) hrest

/-- Two texts that start with runs of one sort are equal only if the runs are. -/
theorem append_inj_of_head? {taken' rest' : List α} (htaken : ∀ a ∈ taken, p a = true)
    (htaken' : ∀ a ∈ taken', p a = true) (hrest : rest.head?.any p = false)
    (hrest' : rest'.head?.any p = false) (h : taken ++ rest = taken' ++ rest') :
    taken = taken' ∧ rest = rest' := by
  have htake := congrArg (List.takeWhile p) h
  have hdrop := congrArg (List.dropWhile p) h
  rw [takeWhile_append_of_head? htaken hrest, takeWhile_append_of_head? htaken' hrest'] at htake
  rw [dropWhile_append_of_head? htaken hrest, dropWhile_append_of_head? htaken' hrest'] at hdrop
  exact ⟨htake, hdrop⟩

/-- Two texts made of pieces are equal only piece by piece, provided that each piece is known
    whatever follows. -/
theorem flatMap_append_inj {β : Type} {f f' : β → List Char} {p : β → Prop} {parts : List β}
    (hpart : ∀ part ∈ parts, ∀ rest rest' : List Char,
      f part ++ rest = f' part ++ rest' → p part ∧ rest = rest')
    {rest rest' : List Char} (h : parts.flatMap f ++ rest = parts.flatMap f' ++ rest') :
    (∀ part ∈ parts, p part) ∧ rest = rest' := by
  induction parts with
  | nil => exact ⟨nofun, h⟩
  | cons part parts ih =>
    obtain ⟨hfirst, hparts⟩ := List.forall_mem_cons.mp hpart
    rw [List.flatMap_cons, List.flatMap_cons, List.append_assoc, List.append_assoc] at h
    obtain ⟨hpiece, hmore⟩ := hfirst _ _ h
    obtain ⟨hothers, hrest⟩ := ih hparts hmore
    exact ⟨List.forall_mem_cons.mpr ⟨hpiece, hothers⟩, hrest⟩

end CircuitCode
