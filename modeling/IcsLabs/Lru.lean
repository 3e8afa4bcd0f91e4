-- One set of a cache that throws out the key whose last access is the oldest. The
-- set is the list of its keys, the one accessed last in front.
import Mathlib.Data.List.Nodup
import Mathlib.Data.List.Perm.Basic
import Mathlib.Tactic.Cases

namespace ics_labs.lru

variable {κ : Type} [DecidableEq κ]

/-- Does an access of `k` throw a key out of a set of `E` lines? -/
def evicts (E : Nat) (k : κ) (l : List κ) : Bool := k ∉ l && l.length == E

/-- The set after an access of `k`. -/
def touch (E : Nat) (k : κ) (l : List κ) : List κ :=
  if k ∈ l then k :: l.erase k
  else if l.length = E then k :: l.dropLast
  else k :: l

/-! ## What is in the set -/

/-- Every key of the set is the accessed one or was there before. -/
theorem mem_touch {E : Nat} {k x : κ} {l : List κ} (h : x ∈ touch E k l) : x = k ∨ x ∈ l := by
  unfold touch at h
  split at h
  · rcases List.mem_cons.mp h with h | h
    · exact Or.inl h
    · exact Or.inr (List.mem_of_mem_erase h)
  · split at h
    · rcases List.mem_cons.mp h with h | h
      · exact Or.inl h
      · exact Or.inr ((List.dropLast_sublist l).mem h)
    · exact List.mem_cons.mp h

/-- The accessed key comes to the front, and the others keep their order. -/
theorem touch_tail_sublist (E : Nat) (k : κ) (l : List κ) :
    ∃ rest, touch E k l = k :: rest ∧ rest.Sublist l := by
  unfold touch
  split
  · exact ⟨_, rfl, List.erase_sublist⟩
  · split
    · exact ⟨_, rfl, List.dropLast_sublist l⟩
    · exact ⟨_, rfl, List.Sublist.refl l⟩

/-! ## The oldest key goes -/

/-- The key that an access throws out is not in the set any more. -/
theorem getLast_not_mem_touch {E : Nat} {k : κ} {l : List κ} (hl : l ≠ []) (hn : l.Nodup)
    (hk : k ∉ l) (hE : l.length = E) : l.getLast hl ∉ touch E k l := by
  rw [touch, if_neg hk, if_pos hE, List.mem_cons]
  rintro (h | h)
  · exact hk (h ▸ List.getLast_mem hl)
  · rw [← List.dropLast_append_getLast hl, List.nodup_append] at hn
    exact hn.2.2 _ h _ (List.mem_singleton_self _) rfl

end ics_labs.lru
