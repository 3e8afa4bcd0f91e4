-- The first request of a trace mode: the heap grows at once, and the block is laid into the
-- middle of the free one. And the blocks of a heap as a walk through it reads them.
import IcsLabs.MmGeneral

open ics_labs.byte_words ics_labs.boundary_tags

namespace ics_labs.mm

/-! ## The blocks, as a walk reads them -/

/-- The blocks from `bp` on with their payload addresses. -/
def blocks_from (h : Heap) : Nat → Nat → List (Nat × Block)
  | 0, _ => []
  | n + 1, bp =>
    match GET_SIZE h (HDRP bp), GET_ALLOC h (HDRP bp) with
    | some size, some alloc =>
      if size > 0 then (bp, ⟨size, decide (alloc ≠ 0)⟩) :: blocks_from h n (bp + size) else []
    | _, _ => []

def Heap.blocks (h : Heap) : List (Nat × Block) := blocks_from h (turns h) h.heap_listp

theorem blocks_from_eq {h : Heap} {l r : List Block} (hw : Tiled h (l ++ r)) {n : Nat}
    (hn : r.length < n) :
    blocks_from h n (h.behind l) = (placed (h.base + total l) r).map fun e => (e.1 + 4, e.2) := by
  induction n generalizing l r with
  | zero => omega
  | succ n ih =>
    have hh := hw.next_header
    have hsize : GET_SIZE h (HDRP (h.behind l)) = some (r.headD epilogue).size := hh.size
    have halloc : GET_ALLOC h (HDRP (h.behind l)) = some (r.headD epilogue).used.toNat := hh.alloc
    unfold blocks_from
    rw [hsize, halloc]
    cases r with
    | nil => rfl
    | cons b r =>
      have h8 : 0 < b.size := Nat.lt_of_lt_of_le (by decide) hw.bounds.1
      have hlen : r.length < n := by
        simp only [List.length_cons] at hn
        omega
      have hrest := ih hw.shift hlen
      rw [behind_append, base_snoc, total_cons, total_nil, Nat.add_zero] at hrest
      have hused : decide (b.used.toNat ≠ 0) = b.used := by
        cases b.used <;> rfl
      show (if b.size > 0 then (h.behind l, (⟨b.size, decide (b.used.toNat ≠ 0)⟩ : Block)) ::
        blocks_from h n (h.behind l + b.size) else []) = _
      rw [if_pos h8, hused, hrest]
      rfl

theorem mem_blocks {h : Heap} {bs : List Block} (hw : Tiled h bs) {p : Nat} {b : Block} :
    (p, b) ∈ h.blocks ↔ BlockAt h bs p b := by
  unfold Heap.blocks
  rw [hw.listp_behind, blocks_from_eq (l := []) hw hw.length_lt, List.mem_map, blockAt_iff]
  constructor
  · rintro ⟨⟨s, d⟩, hs, he⟩
    cases he
    exact ⟨s, rfl, hs⟩
  · rintro ⟨s, rfl, hs⟩
    exact ⟨(s, b), hs, rfl⟩

theorem blocks_snd {h : Heap} {bs : List Block} (hw : Tiled h bs) : h.blocks.map Prod.snd = bs := by
  unfold Heap.blocks
  rw [hw.listp_behind, blocks_from_eq (l := []) hw hw.length_lt, List.map_map]
  exact placed_snd _ bs

/-- A free block with room for `n` bytes. -/
def Room (h : Heap) (n : Nat) : Prop := ∃ e ∈ h.blocks, Fits n e.2

instance (h : Heap) (n : Nat) : Decidable (Room h n) :=
  inferInstanceAs (Decidable (∃ e ∈ h.blocks, Fits n e.2))

/-- The cursor of the next fit is at a block. -/
def CursorFits (h : Heap) : Prop := ∃ e ∈ h.blocks, e.1 = h.just

instance (h : Heap) : Decidable (CursorFits h) :=
  inferInstanceAs (Decidable (∃ e ∈ h.blocks, e.1 = h.just))

theorem room_iff {h : Heap} {bs : List Block} (hw : Tiled h bs) {n : Nat} :
    Room h n ↔ ∃ b ∈ bs, Fits n b := by
  constructor
  · rintro ⟨⟨p, b⟩, hb, hfit⟩
    obtain ⟨l, r, rfl, -⟩ := (mem_blocks hw).mp hb
    exact ⟨b, by simp, hfit⟩
  · rintro ⟨b, hb, hfit⟩
    obtain ⟨l, r, rfl⟩ := List.append_of_mem hb
    exact ⟨(h.behind l, b), (mem_blocks hw).mpr ⟨l, r, rfl, rfl⟩, hfit⟩

theorem CursorFits.justAt {h : Heap} {bs : List Block} (hc : CursorFits h) (hw : Tiled h bs) :
    JustAt h bs := by
  obtain ⟨⟨p, b⟩, hb, rfl⟩ := hc
  exact ⟨b, (mem_blocks hw).mp hb⟩

/-! ## The first request -/

/-- What `settle` does, without its result. -/
theorem settle_snd (h : Heap) (bp asize rest : Nat) (more : Prop) [Decidable more] :
    (settle h bp asize more rest).map Prod.snd = (PUT_TAGS h bp (PACK asize 1)).bind fun g =>
      if more then (NEXT_BLKP g bp).bind fun q => PUT_TAGS g q (PACK rest 0) else some g := by
  show ((PUT_TAGS h bp (PACK asize 1)).bind fun g => if more then (NEXT_BLKP g bp).bind fun q =>
    (PUT_TAGS g q (PACK rest 0)).bind fun e => some (bp, e) else some (bp, g)).map Prod.snd = _
  rw [Option.map_bind]
  apply Option.bind_congr
  intro g _
  show Option.map Prod.snd (if more then _ else some (bp, g)) = _
  split
  · rw [Option.map_bind]
    apply Option.bind_congr
    intro q _
    show Option.map Prod.snd ((PUT_TAGS g q (PACK rest 0)).bind fun e => some (bp, e)) = _
    rw [Option.map_bind]
    exact Option.bind_fun_some _
  · rfl

/-- `add` writes the tags on the left, and then does what `settle` does. -/
theorem add_eq (h : Heap) (bp oldbp asize : Nat) :
    add h bp oldbp asize = (GET_SIZE h (HDRP oldbp)).bind fun n =>
      (if sub bp oldbp > 0 then PUT_TAGS h oldbp (PACK (sub bp oldbp) 0) else some h).bind fun e =>
        (settle e bp asize (sub (sub n (sub bp oldbp)) asize > 0)
          (sub (sub n (sub bp oldbp)) asize)).map Prod.snd := by
  unfold add
  apply Option.bind_congr
  intro n _
  simp only [settle_snd]
  split <;> rfl
section First

variable {h : Heap} {l r : List Block} {n os asize : Nat}

/-- `add` inside a free block: a part of it stays free on either side. -/
theorem add_spec (hw : WellFormed h (l ++ ⟨n, false⟩ :: r)) (hl : l ≠ []) (h8 : 8 ≤ os)
    (hd : 8 ∣ os) (ha8 : 8 ≤ asize) (had : 8 ∣ asize) (hlt : os + asize < n) :
    ∃ h', add h (h.behind l + os) (h.behind l) asize = some h' ∧
      Granted h h' (l ++ ⟨n, false⟩ :: r)
        (l ++ ⟨os, false⟩ :: ⟨asize, true⟩ :: ⟨n - os - asize, false⟩ :: r) (fun _ => False)
        (h.behind l + os) asize := by
  obtain ⟨-, h2, h3, h4, h5⟩ := hw.toTiled.bounds
  simp only at h2 h4 h5
  have hbe : h.behind l = h.base + total l + 4 := rfl
  generalize hs : h.base + total l = s at *
  have h64 : n < 2 ^ 64 ∧ s + 4 + os < 2 ^ 64 := by
    have := hw.start_lt
    have := hw.bound
    omega
  have hdr : 8 ∣ n - os - asize := Nat.dvd_sub (Nat.dvd_sub h2 hd) had
  have hs1 : sub (h.behind l + os) (h.behind l) = os := by
    rw [sub_eq (by omega) (by omega)]
    omega
  have hs2 : sub (sub n os) asize = n - os - asize := by
    rw [sub_eq (by omega) h64.1, sub_eq (by omega) (by omega)]
  have hin : InHeap h s os := ⟨by omega, by omega⟩
  have hput := put_free hin h8 hd (by omega)
  have hin' : InHeap { h with contents := tagged h.contents s ⟨os, false⟩ } (s + os)
      (asize + (n - os - asize)) :=
    ⟨show h.mem_start_brk ≤ s + os by omega, show s + os + (asize + (n - os - asize)) ≤ h.mem_brk by omega⟩
  have hset := settle_eq hin' ha8 had hdr (by omega) (n - os - asize > 0) (by omega)
  have hsize : GET_SIZE h (HDRP (h.behind l)) = some n := hw.toTiled.header.size
  have hrun := add_eq h (h.behind l + os) (h.behind l) asize
  rw [hsize, Option.bind_some, hs1, if_pos (by omega), hs2, hbe, hput, Option.bind_some,
    show s + 4 + os = s + os + 4 by omega, hset] at hrun
  have hoff : AgreeOff h.contents
      (laid (tagged h.contents s ⟨os, false⟩) (s + os) asize (n - os - asize)) s n := by
    apply AgreeOff.trans
    · exact (agreeOff_tagged h.contents s (b := ⟨os, false⟩) (by simp only; omega)).mono
        (Nat.le_refl s) (by simp only; omega)
    · exact (agreeOff_laid _ (s + os) ha8 hdr).mono (by omega) (by omega)
  have e : Edits h { h with
      contents := laid (tagged h.contents s ⟨os, false⟩) (s + os) asize (n - os - asize) }
      (h.base + total l) (total [⟨n, false⟩]) := by
    apply Edits.contents
    rw [hs]
    simpa using hoff
  have htot : total [⟨os, false⟩, ⟨asize, true⟩, ⟨n - os - asize, false⟩] = total [⟨n, false⟩] := by
    simp only [total_cons, total_nil]
    omega
  have hleft : leftover (n - os - asize) = [⟨n - os - asize, false⟩] := if_neg (by omega)
  have hlaid := tiles_laid (tagged h.contents s ⟨os, false⟩) (s + os) ha8 had hdr
    (by unfold MAX_HEAP at h5; omega)
  rw [hleft] at hlaid
  have hst := stands_free (c := h.contents) (s := s) h8 hd (show os < MAX_HEAP by omega)
  have hst' := hst.congr ((agreeOff_laid _ (s + os) (n := asize) ha8 hdr).agree
    (a := s) (k := os) (Or.inl (Nat.le_refl _)))
  have hti := hw.toTiled.replace (m := [⟨n, false⟩])
    (v := [⟨os, false⟩, ⟨asize, true⟩, ⟨n - os - asize, false⟩]) e htot
    (by rw [hs]; exact ⟨hst', hlaid⟩) (hw.toTiled.first_append hl _)
  have hafter := hw.spaced.used_after_free rfl
  have hlast : ∀ d ∈ l.getLast?, d.used = true := by
    intro d hd
    have := (spaced_append.mp hw.spaced).2.2 d hd ⟨n, false⟩ (by simp)
    simpa using this
  have hsp : Spaced (l ++ ([⟨os, false⟩, ⟨asize, true⟩, ⟨n - os - asize, false⟩] ++ r)) := by
    simp only [List.cons_append, List.nil_append]
    rw [spaced_append, spaced_cons, spaced_cons, spaced_cons]
    refine ⟨hw.spaced.left, ⟨?_, ?_, ?_, hw.spaced.right.tail⟩, ?_⟩
    · intro d hd
      cases hd
      exact Or.inr rfl
    · intro d _
      exact Or.inl rfl
    · intro d hd
      exact Or.inr (hafter d hd)
    · intro d hd f _
      exact Or.inl (hlast d hd)
  have hk := e.keeps (r := r) (v := [⟨os, false⟩, ⟨asize, true⟩, ⟨n - os - asize, false⟩])
    (g := fun _ => False) htot (by
      intro q b hq hb
      simp only [placed, List.mem_singleton, Prod.mk.injEq] at hq
      rw [hq.2] at hb
      cases hb)
  refine ⟨_, by rw [hbe, show s + 4 + os = s + os + 4 by omega]; exact hrun,
    ⟨⟨hti, hsp⟩, hk, rfl, rfl, rfl⟩,
    ⟨asize, Nat.le_refl _, l ++ [⟨os, false⟩], ⟨n - os - asize, false⟩ :: r, ?_, ?_⟩, ?_⟩
  · simp
  · show h.behind l + os = h.base + total (l ++ [⟨os, false⟩]) + 4
    rw [base_snoc, hs, hbe]
    simp only
    omega
  · -- Inside the free block no other block starts.
    intro b hb _
    rcases blockAt_not_inside hb with h6 | h6
    · omega
    · simp only at h6
      omega

/-- The heap behind the first request of a trace mode: a block in use at `os` bytes behind
the start of the list, and free blocks on both sides of it. -/
def firstBlocks (exth os asize : Nat) : List Block :=
  [prologue, ⟨os - 8, false⟩, ⟨asize, true⟩, ⟨4096 + exth - (os - 8) - asize, false⟩]

/-- The first request of a trace mode, on the heap that `mm_init` leaves. -/
theorem lay_first_spec (exth os asize : Nat) (hw : WellFormed h [prologue, ⟨4096, false⟩]) (he : 8 ∣ exth)
    (hpos : 0 < exth) (hlt : exth < 2 ^ 21) (h16 : 16 ≤ os) (hd : 8 ∣ os) (ha8 : 8 ≤ asize)
    (had : 8 ∣ asize) (hfit : os - 8 + asize < 4096 + exth) :
    ∃ h', lay_first h exth os asize = some (h.heap_listp + os, h') ∧
      Granted h h' [prologue, ⟨4096, false⟩] (firstBlocks exth os asize) (fun _ => False)
        (h.heap_listp + os) asize ∧ h'.heap_listp = h.heap_listp := by
  have hwords : exth / WSIZE * 4 = exth := by
    unfold WSIZE
    omega
  rcases extend_heap_served (exth / WSIZE) hw (by unfold WSIZE; omega) (by unfold WSIZE; omega)
    (by omega) with ⟨hroom, -⟩ | ⟨l, f, e, hlf, hf, hfl, hok, hb, -, hs, -⟩
  · have hbrk := hw.brk
    unfold Heap.base at hbrk
    simp only [total_cons, total_nil, prologue] at hbrk
    unfold MAX_HEAP at hroom
    omega
  · -- The free block that `mm_init` left takes up the new bytes.
    have hfne := hfl ⟨⟨4096, false⟩, by simp, rfl⟩
    rcases hf with rfl | ⟨x, rfl, -⟩
    · exact absurd rfl hfne
    · have hsplit : [prologue] ++ [⟨4096, false⟩] = l ++ [x] := hlf
      obtain ⟨rfl, hx⟩ := List.append_inj' hsplit rfl
      simp only [List.cons.injEq, and_true] at hx
      subst hx
      rw [hwords] at hs
      simp only [total_cons, total_nil, Nat.add_zero] at hs
      have hlist : e.heap_listp = e.behind [] := hs.wf.toTiled.listp_behind
      have hnext : NEXT_BLKP e e.heap_listp = some (e.behind [prologue]) := by
        rw [hlist]
        exact NEXT_BLKP_at (s := e.base + total []) (b := prologue)
          (Tiled.header (l := []) hs.wf.toTiled)
      have hsame : e.heap_listp = h.heap_listp := by
        rw [hlist, hw.toTiled.listp_behind]
        unfold Heap.behind
        rw [hb]
      have hbp : e.behind [prologue] + (os - 8) = h.heap_listp + os := by
        rw [← hsame, hlist]
        unfold Heap.behind
        simp only [total_cons, total_nil, prologue]
        omega
      obtain ⟨h', hadd, hg⟩ := add_spec hs.wf (by simp) (show 8 ≤ os - 8 by omega)
        (show 8 ∣ os - 8 by omega) ha8 had hfit
      rw [hbp] at hadd hg
      refine ⟨h', ?_, ⟨⟨hg.wf, hs.keeps.trans hg.keeps, hg.fmalloc.trans hs.fmalloc,
        hg.TR.trans hs.TR, hg.Q_no.trans hs.Q_no⟩, hg.block, ?_⟩, ?_⟩
      · unfold lay_first
        rw [hok]
        show (NEXT_BLKP e e.heap_listp).bind (fun q => (add e (e.heap_listp + os) q asize).bind
          fun g => some (e.heap_listp + os, g)) = _
        rw [hnext, Option.bind_some, hsame, hadd]
        rfl
      · intro b hb' hu
        exact hg.fresh b (hs.keeps.block _ b hb' hu (by simp)) hu
      · rw [hg.wf.listp, hg.keeps.start, ← hs.wf.listp, hsame]

end First

end ics_labs.mm
