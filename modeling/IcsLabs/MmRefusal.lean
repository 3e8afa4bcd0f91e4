-- What a refusal of mem_sbrk leaves behind. It comes up several calls deep, and on the way
-- down only `end` has moved.
import IcsLabs.MmGeneral

open ics_labs.boundary_tags

namespace ics_labs.mm

/-! ## Refusals -/

/-- The bytes that `extend_heap` asks `mem_sbrk` for. -/
def asked (words : Nat) : Nat :=
  if words % 2 = 1 then (words + 1) * WSIZE % 2 ^ 64 else words * WSIZE % 2 ^ 64

/-- `mem_sbrk` refuses to grow the heap while `norm_malloc` runs. -/
def RefusedAt (h : Heap) (asize : Nat) : Prop :=
  ∃ h₁ ext, next_fit h asize = some (0, h₁) ∧ growth h₁ asize = some ext ∧
    (mem_sbrk h₁ (toInt (asked (ext / WSIZE)))).1 = none

/-- `mem_sbrk` refuses to grow the heap during a request in general mode. A block that
`mm_realloc` grows in place needs no new bytes. -/
def Refused (h : Heap) : Call → Prop
  | .malloc size => size ≠ 0 ∧ RefusedAt h (roundUp size)
  | .free _ => False
  | .realloc ptr size => size ≠ 0 ∧ ∃ old, GET_SIZE h (HDRP ptr) = some old ∧
      old < roundUp size ∧ inPlace h ptr old (roundUp size) = none ∧ RefusedAt h (roundUp size)

section Refusal

variable {h h₁ : Heap} {asize : Nat}

/-- A fit that finds nothing moves `end` alone. -/
theorem next_fit_null (hn : next_fit h asize = some (0, h₁)) :
    ∃ e, h₁ = { h with end_ := e } := by
  unfold next_fit at hn
  obtain ⟨⟨p, e⟩, -, hn⟩ := Option.bind_eq_some_iff.mp hn
  by_cases hp : p = 0
  · simp only [hp, ne_eq, not_true_eq_false, if_false] at hn
    obtain ⟨q, -, hn⟩ := Option.bind_eq_some_iff.mp hn
    by_cases hq : q = 0
    · simp only [hq, not_true_eq_false, if_false] at hn
      cases hn
      exact ⟨e, rfl⟩
    · simp only [hq, not_false_eq_true, if_true] at hn
      cases hn
      exact absurd rfl hq
  · simp only [hp, ne_eq, not_false_eq_true, if_true] at hn
    cases hn
    exact absurd rfl hp

theorem sbrk_refused {n : Int} (hn : (mem_sbrk h n).1 = none) : mem_sbrk h n = (none, h) := by
  unfold mem_sbrk at hn ⊢
  split
  · rfl
  · rename_i hno
    rw [if_neg hno] at hn
    cases hn

theorem extend_heap_refused {words : Nat} (hn : (mem_sbrk h (toInt (asked words))).1 = none) :
    extend_heap h words = some (0, h) := by
  show free_tail (asked words) (mem_sbrk h (toInt (asked words))) = _
  rw [sbrk_refused hn]
  rfl

theorem norm_malloc_refused (hr : RefusedAt h asize) :
    ∃ e, norm_malloc h asize = some (0, { h with end_ := e }) := by
  obtain ⟨h₁, ext, hfit, hgrow, hsbrk⟩ := hr
  obtain ⟨e, rfl⟩ := next_fit_null hfit
  refine ⟨e, ?_⟩
  show (next_fit h asize).bind _ = _
  rw [hfit]
  show (growth { h with end_ := e } asize).bind _ = _
  rw [hgrow]
  show (extend_heap { h with end_ := e } (ext / WSIZE)).bind _ = _
  rw [extend_heap_refused hsbrk]
  rfl

theorem mm_malloc_refused {size : Nat} (hT : h.TR = 0) (hf : h.fmalloc = false) (h0 : size ≠ 0)
    (hr : RefusedAt h (roundUp size)) :
    ∃ e, mm_malloc h size = some (0, { h with end_ := e }) := by
  rw [mm_malloc_general hT hf h0]
  exact norm_malloc_refused hr

end Refusal

/-! ## The law -/

/-- When `mem_sbrk` refuses to grow the heap during a request in general mode, the request
returns NULL. Every byte, the break and `just` are as they were, and so is every live block. -/
theorem a_refusal_changes_nothing {h : Heap} {bs : List Block} (hw : WellFormed h bs)
    (hT : h.TR = 0) (hf : h.fmalloc = false) (c : Call)
    (hlive : ∀ p, c.names p → ∃ n, Live h bs p n) (hs : c.size < 2 ^ 31 - 16) (hr : Refused h c) :
    ∃ e, perform h c = some (0, { h with end_ := e }) ∧ WellFormed { h with end_ := e } bs ∧
      ∀ p n, Live h bs p n → Live { h with end_ := e } bs p n := by
  suffices hnull : ∃ e, perform h c = some (0, { h with end_ := e }) by
    obtain ⟨e, he⟩ := hnull
    exact ⟨e, he, hw.cursors h.just e, fun _ _ hp => hp⟩
  cases c with
  | malloc size => exact mm_malloc_refused hT hf hr.1 hr.2
  | free ptr => exact hr.elim
  | realloc ptr size =>
    obtain ⟨h0, old, hold, hlt, hin, hr⟩ := hr
    obtain ⟨n, hp⟩ := hlive ptr rfl
    have hsz : GET_SIZE h (HDRP ptr) = some n := by
      obtain ⟨l, r, rfl, -, rfl⟩ := hp
      exact hw.toTiled.header.size
    obtain rfl : old = n := Option.some.inj (hold.symm.trans hsz)
    obtain ⟨h1, h2⟩ := roundUp_spec (n := size) (by simp only [Call.size] at hs; omega)
    -- The request is passed on to `mm_malloc`.
    have hgrow : grow h ptr size old (roundUp size) = norm_realloc h ptr size old := by
      rcases grow_spec size hw hp (by omega) (by omega) (roundUp_dvd size) hlt
        (by simp only [Call.size] at hs; omega) with ⟨q, t, -, -, hyes, -⟩ | ⟨-, hgr⟩
      · rw [hin] at hyes
        cases hyes
      · exact hgr
    obtain ⟨e, hm⟩ := mm_malloc_refused hT hf h0 hr
    refine ⟨e, ?_⟩
    show mm_realloc h ptr size = _
    rw [mm_realloc_eq hw hp h0, if_neg (by omega), if_neg (by omega), hgrow]
    exact norm_realloc_null hm

/-- More than the heap can ever hold. -/
theorem a_block_is_not_moved_into_a_full_heap :
    ∃ e, perform oneBlock (.realloc 24 (2 ^ 30)) = some (0, { oneBlock with end_ := e }) ∧
      WellFormed { oneBlock with end_ := e } [prologue, ⟨24, true⟩] ∧
      ∀ p n, Live oneBlock [prologue, ⟨24, true⟩] p n →
        Live { oneBlock with end_ := e } [prologue, ⟨24, true⟩] p n := by
  refine a_refusal_changes_nothing (h := oneBlock) oneBlock_wellFormed rfl rfl
    (.realloc 24 (2 ^ 30)) ?_ (by decide)
    ⟨by decide, 24, by decide +kernel, by decide, by decide +kernel, ?_⟩
  · rintro p rfl
    exact ⟨24, oneBlock_live⟩
  · refine ⟨{ oneBlock with end_ := 24 }, roundUp (2 ^ 30), ?_, by decide +kernel,
      by decide +kernel⟩
    rcases next_fit_spec (roundUp (2 ^ 30)) oneBlock_wellFormed.toTiled oneBlock_just with
      ⟨l, k, r, e, hbs, hk, -⟩ | ⟨-, l, d, hbs, hfit⟩
    · have hmem : (⟨k, false⟩ : Block) ∈ [prologue, ⟨24, true⟩] := by
        rw [hbs]
        simp
      simp [prologue] at hmem
    · have hsplit : [prologue] ++ [⟨24, true⟩] = l ++ [d] := hbs
      have hl : [prologue] = l := (List.append_inj' hsplit rfl).1
      rw [← hl] at hfit
      exact hfit

end ics_labs.mm
