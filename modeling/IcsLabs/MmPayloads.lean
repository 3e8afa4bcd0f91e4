-- What the caller relies on: its payloads are aligned, inside the heap and apart from each
-- other, in every state of every run, and no request reads or writes outside the heap.
import IcsLabs.MmModeRuns

open ics_labs.byte_words ics_labs.boundary_tags ics_labs.runs

namespace ics_labs.mm

/-- Every payload that the caller holds is aligned, is inside the heap, and overlaps no
other one. -/
structure Sound (w : World) : Prop where
  aligned : ∀ e ∈ w.live, 8 ∣ e.1
  inside : ∀ e ∈ w.live, w.heap.mem_start_brk ≤ e.1 ∧ e.1 + e.2 ≤ w.heap.mem_brk
  apart : w.live.Pairwise fun d e => d.1 + d.2 ≤ e.1 ∨ e.1 + e.2 ≤ d.1

instance (w : World) : Decidable (Sound w) :=
  decidable_of_iff ((∀ e ∈ w.live, 8 ∣ e.1) ∧
    (∀ e ∈ w.live, w.heap.mem_start_brk ≤ e.1 ∧ e.1 + e.2 ≤ w.heap.mem_brk) ∧
    w.live.Pairwise fun d e => d.1 + d.2 ≤ e.1 ∨ e.1 + e.2 ≤ d.1)
    ⟨fun h => ⟨h.1, h.2.1, h.2.2⟩, fun h => ⟨h.aligned, h.inside, h.apart⟩⟩

/-- A request that comes to the next fit finds the cursor at a block. -/
def FindsCursor (w : World) : Act → Prop
  | .call c => ∀ v ∈ asks w.heap c, v.2 ≠ 0 → ¬ ByMode v.1 v.2 → CursorFits w.heap
  | .write _ _ => True

instance (w : World) (a : Act) : Decidable (FindsCursor w a) :=
  match a with
  | .call c => inferInstanceAs (Decidable
      (∀ v ∈ asks w.heap c, v.2 ≠ 0 → ¬ ByMode v.1 v.2 → CursorFits w.heap))
  | .write _ _ => inferInstanceAs (Decidable True)

section Sound

variable {w : World} {bs : List Block}

/-- The payloads of a well-formed heap are sound. -/
theorem Good.sound (g : Good w bs) : Sound w := by
  refine ⟨?_, ?_, ?_⟩
  · intro e he
    obtain ⟨k, ⟨l, r, rfl, -, hp⟩, -⟩ := g.live e he
    have hd : 8 ∣ total l := (tiles_append.mp g.wf.tiles).1.dvd_total
    have ha := g.wf.aligned
    rw [hp]
    unfold Heap.behind Heap.base
    omega
  · intro e he
    obtain ⟨k, ⟨l, r, rfl, -, hp⟩, hk⟩ := g.live e he
    obtain ⟨-, -, h3, h4, -⟩ := g.wf.toTiled.bounds
    rw [hp]
    unfold Heap.behind
    simp only at h4
    omega
  · have hne : w.live.Pairwise fun d e => d.1 ≠ e.1 := List.pairwise_map.mp g.nodup
    apply hne.imp_of_mem
    intro d e hd he hde
    obtain ⟨k, hk, hks⟩ := g.live d hd
    obtain ⟨m, hm, hms⟩ := g.live e he
    rcases blockAt_apart hk.blockAt hm.blockAt with ⟨h1, -⟩ | h1 | h1
    · exact absurd h1 hde
    · simp only at h1
      omega
    · simp only at h1
      omega

/-- A careful step that finds the cursor goes on in a sound world. -/
theorem sound_step {a : Act} (hP : Held w) (hl : Legal w a) (hc : Careful w a)
    (hf : FindsCursor w a) : ∃ w', w.step a = some w' ∧ Held w' := by
  cases a with
  | write a b =>
    obtain ⟨bs, g, hr⟩ := hP
    exact ⟨_, rfl, bs, g.write hl, hr.kept rfl rfl rfl fun _ _ hfr => hfr⟩
  | call c =>
    have hal : Allowed w (.call c) := by
      cases c with
      | malloc size => trivial
      | free p => exact Or.inr hl
      | realloc p size => exact Or.inr hl.1
    have hlt : c.size < 2 ^ 31 - 16 := by
      cases c with
      | malloc size => exact hl
      | free p => simp [Call.size]
      | realloc p size => exact hl.2
    rcases held_call hP hal hc with hgoes | ⟨-, hgoes⟩
    · exact hgoes
    · apply hgoes hlt
      rintro ⟨e, he, h0, hby⟩
      exact hf (e, c.size) he h0 hby

end Sound

/-! ## The law of the payloads -/

/-- Every run of careful steps that find the cursor at a block goes on to its end without a
fault, and the payloads are sound in every state that it reaches. -/
theorem the_payloads_are_sound {h₀ h : Heap} (hf : Fresh h₀) (hi : mm_init h₀ = some (0, h))
    (acts : List Act)
    (hC : Along World.step (fun w a => Legal w a ∧ Careful w a ∧ FindsCursor w a) ⟨h, []⟩ acts) :
    (∃ w, exec World.step ⟨h, []⟩ acts = some w) ∧ Reaches World.step Sound ⟨h, []⟩ acts := by
  have hstep : ∀ (w : World) (a : Act), Held w → Legal w a ∧ Careful w a ∧ FindsCursor w a →
      ∃ w', w.step a = some w' ∧ Held w' := fun w a hP hg => sound_step hP hg.1 hg.2.1 hg.2.2
  constructor
  · obtain ⟨w, hw, -⟩ := exec_goes_on hstep (held_init hf hi) hC
    exact ⟨w, hw⟩
  · intro js ks w hjs hw
    subst hjs
    obtain ⟨v, hv, bs, g, -⟩ := exec_goes_on hstep (held_init hf hi) hC.left
    rw [hv] at hw
    cases hw
    exact g.sound

/-- A block is freed and taken again, and the first one is moved. -/
def takesAgain : List Act :=
  freeBehindFirst ++ [.call (.malloc 24), .call (.realloc 4112 64)]

theorem the_payloads_stay_apart :
    (∃ w, exec World.step ⟨started, []⟩ takesAgain = some w) ∧
      Reaches World.step Sound ⟨started, []⟩ takesAgain := by
  apply the_payloads_are_sound emptyHeap_fresh mm_init_started
  apply along_of_check
  decide +kernel

/-- The first block grows over the cursor, and the next request is given bytes inside it. -/
theorem two_payloads_overlap : ¬ ∀ (h₀ h : Heap) (acts : List Act), Fresh h₀ →
    mm_init h₀ = some (0, h) → Along World.step Legal ⟨h, []⟩ acts →
    (∃ w, exec World.step ⟨h, []⟩ acts = some w) ∧ Reaches World.step Sound ⟨h, []⟩ acts := by
  intro hall
  have hlegal : Along World.step Legal ⟨started, []⟩
      (freeBehindFirst ++ [growFirst, .call (.malloc 32)]) := by
    apply along_of_check
    decide +kernel
  have hcheck : (exec World.step ⟨started, []⟩
      (freeBehindFirst ++ [growFirst, .call (.malloc 32)])).any
      (fun w => decide ¬ Sound w) = true := by
    decide +kernel
  obtain ⟨w, hw, hc⟩ := (Option.any_eq_true _ _).mp hcheck
  have hsound := (hall emptyHeap started _ emptyHeap_fresh mm_init_started hlegal).2 _ [] w
    (List.append_nil _).symm hw
  exact of_decide_eq_true hc hsound

end ics_labs.mm
