-- The heap of mm.c as a row of blocks: an allocated prologue of 8 bytes, the blocks
-- behind it, and an epilogue of size 0 at the break. What the macros read off such
-- a heap, and what becomes of it when a part of the row is laid out anew.
import IcsLabs.Mm
import IcsLabs.BoundaryTags

open ics_labs.byte_words ics_labs.boundary_tags

namespace ics_labs.mm

/-! ## Words and packed words -/

theorem land_mask {x : Nat} (h : x < 2 ^ 32) : x &&& 0xFFFFFFF8 = x / 8 * 8 := by
  apply Nat.eq_of_testBit_eq
  intro i
  rw [show x / 8 * 8 = 2 ^ 3 * (x / 2 ^ 3) by omega,
    show (0xFFFFFFF8 : Nat) = 2 ^ 3 * (2 ^ 29 - 1) by norm_num, Nat.testBit_and,
    Nat.testBit_two_pow_mul, Nat.testBit_two_pow_mul, Nat.testBit_div_two_pow,
    Nat.testBit_two_pow_sub_one]
  by_cases h3 : 3 ≤ i
  · have hi : i - 3 + 3 = i := by omega
    by_cases h32 : i < 32
    · simp [h3, hi, show i - 3 < 29 by omega]
    · have hx : x.testBit i = false := by
        apply Nat.testBit_lt_two_pow
        exact Nat.lt_of_lt_of_le h (Nat.pow_le_pow_right (by omega) (by omega))
      simp [h3, hi, hx]
  · simp [h3]

theorem pack_eq {n a : Nat} (h : 8 ∣ n) (ha : a < 8) : PACK n a = n + a := by
  obtain ⟨k, rfl⟩ := h
  exact (Nat.two_pow_add_eq_or_of_lt (i := 3) ha k).symm

theorem pack_used {n : Nat} (h : 8 ∣ n) : PACK n 1 = (Block.mk n true).tag :=
  pack_eq h (by omega)

theorem pack_free {n : Nat} (h : 8 ∣ n) : PACK n 0 = (Block.mk n false).tag :=
  pack_eq h (by omega)

theorem sub_eq {a b : Nat} (h : b ≤ a) (ha : a < 2 ^ 64) : sub a b = a - b := by
  unfold sub
  omega

theorem add64_eq {a b : Nat} (h : a + b < 2 ^ 64) : add64 a b = a + b := Nat.mod_eq_of_lt h

theorem roundUp_dvd (n : Nat) : 8 ∣ roundUp n := ⟨_, rfl⟩

/-- The block for a request has room for it and for both tags. -/
theorem roundUp_spec {n : Nat} (h : n < 2 ^ 64 - 15) : n + 8 ≤ roundUp n ∧ roundUp n ≤ n + 15 := by
  unfold roundUp add64 DSIZE
  omega

/-! ## Tags in a heap -/

/-- The word at `p` is in the heap and is the tag of `b`. -/
structure HasTag (h : Heap) (p : Nat) (b : Block) : Prop where
  inside : InHeap h p 4
  word : load h.contents p 4 = b.tag
  dvd : 8 ∣ b.size

theorem HasTag.size {h : Heap} {p : Nat} {b : Block} (ht : HasTag h p b) :
    GET_SIZE h p = some b.size := by
  have hlt : b.tag < 2 ^ 32 := by
    rw [← ht.word]
    exact load_lt _ _ 4
  unfold GET_SIZE GET
  rw [if_pos ht.inside, ht.word]
  show some (b.tag &&& 0xFFFFFFF8) = some b.size
  rw [land_mask hlt, b.tag_div ht.dvd]

theorem HasTag.alloc {h : Heap} {p : Nat} {b : Block} (ht : HasTag h p b) :
    GET_ALLOC h p = some b.used.toNat := by
  unfold GET_ALLOC GET
  rw [if_pos ht.inside, ht.word]
  show some (b.tag &&& 1) = some b.used.toNat
  rw [Nat.and_one_is_mod, b.tag_mod ht.dvd]

/-- The heap with the word `v` at `p`. -/
def Heap.put (h : Heap) (p v : Nat) : Heap := { h with contents := store h.contents p 4 v }

@[simp] theorem put_mem_start_brk (h : Heap) (p v : Nat) :
    (h.put p v).mem_start_brk = h.mem_start_brk := rfl

@[simp] theorem put_mem_brk (h : Heap) (p v : Nat) : (h.put p v).mem_brk = h.mem_brk := rfl

@[simp] theorem put_just (h : Heap) (p v : Nat) : (h.put p v).just = h.just := rfl

theorem PUT_eq {h : Heap} {p v : Nat} (hp : InHeap h p 4) : PUT h p v = some (h.put p v) :=
  if_pos hp

theorem HasTag.put_same {h : Heap} {p : Nat} {b : Block} (hp : InHeap h p 4) (hd : 8 ∣ b.size)
    (hlt : b.tag < 2 ^ 32) : HasTag (h.put p b.tag) p b := by
  have hlt' : b.tag < 256 ^ 4 := hlt
  refine ⟨hp, ?_, hd⟩
  unfold Heap.put
  rw [load_store_same, Nat.mod_eq_of_lt hlt']

theorem HasTag.put_other {h : Heap} {p q v : Nat} {b : Block} (ht : HasTag h p b)
    (hpq : p + 4 ≤ q ∨ q + 4 ≤ p) : HasTag (h.put q v) p b :=
  ⟨ht.inside, by rw [← ht.word]; exact load_store_of_disjoint hpq, ht.dvd⟩

/-! ## The macros at a block -/

/-- The payload address of a block that starts at `s`. -/
@[simp] theorem HDRP_at (s : Nat) : HDRP (s + 4) = s := rfl

theorem FTRP_at {h : Heap} {s : Nat} {b : Block} (ht : HasTag h s b) (h8 : 8 ≤ b.size) :
    FTRP h (s + 4) = some (s + b.size - 4) := by
  unfold FTRP
  rw [HDRP_at, ht.size]
  show some (s + 4 + b.size - 8) = _
  rw [show s + 4 + b.size - 8 = s + b.size - 4 by omega]

theorem NEXT_BLKP_at {h : Heap} {s : Nat} {b : Block} (ht : HasTag h s b) :
    NEXT_BLKP h (s + 4) = some (s + b.size + 4) := by
  unfold NEXT_BLKP
  rw [show s + 4 - WSIZE = s from rfl, ht.size]
  show some (s + 4 + b.size) = _
  rw [Nat.add_right_comm]

/-- The block before the one at `s`, by its footer. -/
theorem PREV_BLKP_at {h : Heap} {s : Nat} {b : Block} (ht : HasTag h (s + b.size - 4) b)
    (h8 : 8 ≤ b.size) : PREV_BLKP h (s + b.size + 4) = some (s + 4) := by
  unfold PREV_BLKP
  rw [show s + b.size + 4 - DSIZE = s + b.size - 4 by unfold DSIZE; omega, ht.size]
  show some (s + b.size + 4 - b.size) = _
  rw [show s + b.size + 4 - b.size = s + 4 by omega]

theorem PUT_TAGS_eq {h : Heap} {s v : Nat} {b : Block} (hin : InHeap h s b.size)
    (h8 : 8 ≤ b.size) (hd : 8 ∣ b.size) (hlt : b.tag < 2 ^ 32) (hv : v = b.tag) :
    PUT_TAGS h (s + 4) v = some { h with contents := tagged h.contents s b } := by
  subst hv
  obtain ⟨hin1, hin2⟩ := hin
  have hp : InHeap h s 4 := ⟨hin1, by omega⟩
  have ht : HasTag (h.put s b.tag) s b := HasTag.put_same hp hd hlt
  have hq : InHeap (h.put s b.tag) (s + b.size - 4) 4 := by
    constructor
    · show h.mem_start_brk ≤ _
      omega
    · show _ ≤ h.mem_brk
      omega
  unfold PUT_TAGS
  rw [HDRP_at, PUT_eq hp]
  show (FTRP (h.put s b.tag) (s + 4)).bind (fun p => PUT (h.put s b.tag) p b.tag) = _
  rw [FTRP_at ht h8, Option.bind_some, PUT_eq hq]
  rfl

/-! ## Tiled heaps -/

def prologue : Block := ⟨8, true⟩

/-- The epilogue: only a header. -/
def epilogue : Block := ⟨0, true⟩

/-- Where the prologue starts. -/
def Heap.base (h : Heap) : Nat := h.mem_start_brk + 4

/-- The payload address of the block that stands behind the blocks `l`. -/
def Heap.behind (h : Heap) (l : List Block) : Nat := h.base + total l + 4

/-- The blocks, the prologue first, tile the heap up to the epilogue at the break. The
memory for the heap is aligned, and none of it is at NULL or wraps round. -/
structure Tiled (h : Heap) (bs : List Block) : Prop where
  aligned : 8 ∣ h.mem_start_brk
  start_pos : 0 < h.mem_start_brk
  start_lt : h.mem_start_brk + MAX_HEAP < 2 ^ 64
  listp : h.heap_listp = h.mem_start_brk + 8
  first : bs.head? = some prologue
  tiles : Tiles h.contents h.base bs
  brk : h.mem_brk = h.base + total bs + 4
  last : load h.contents (h.base + total bs) 4 = epilogue.tag
  bound : h.mem_brk ≤ h.mem_start_brk + MAX_HEAP

/-- A well-formed heap: it is tiled, and no two neighbours are both free. -/
structure WellFormed (h : Heap) (bs : List Block) : Prop extends Tiled h bs where
  spaced : Spaced bs

section Tiled

variable {h : Heap} {bs l r : List Block} {b : Block}

theorem Tiled.listp_behind (hw : Tiled h bs) : h.heap_listp = h.behind [] := hw.listp

theorem Tiled.total_lt (hw : Tiled h bs) : total bs < MAX_HEAP := by
  have h1 := hw.brk
  have h2 := hw.bound
  unfold Heap.base at h1
  omega

theorem Tiled.stands (hw : Tiled h (l ++ b :: r)) : Stands h.contents (h.base + total l) b :=
  hw.tiles.stands

/-- The arithmetic of a block and its place. -/
theorem Tiled.bounds (hw : Tiled h (l ++ b :: r)) :
    8 ≤ b.size ∧ 8 ∣ b.size ∧ h.mem_start_brk + 4 = h.base ∧
      h.base + total l + b.size + total r + 4 = h.mem_brk ∧ total l + b.size + total r < MAX_HEAP := by
  have hbrk := hw.brk
  have hlt := hw.total_lt
  have hs := hw.stands
  simp only [total_append, total_cons] at hbrk hlt
  refine ⟨hs.size_ge, hs.size_dvd, rfl, ?_, ?_⟩ <;> omega

theorem Tiled.header (hw : Tiled h (l ++ b :: r)) : HasTag h (h.base + total l) b := by
  obtain ⟨h1, h2, h3, h4, -⟩ := hw.bounds
  exact ⟨⟨by omega, by omega⟩, hw.stands.header, h2⟩

theorem Tiled.footer (hw : Tiled h (l ++ b :: r)) :
    HasTag h (h.base + total l + b.size - 4) b := by
  obtain ⟨h1, h2, h3, h4, -⟩ := hw.bounds
  exact ⟨⟨by omega, by omega⟩, hw.stands.footer, h2⟩

theorem Tiled.ending (hw : Tiled h bs) : HasTag h (h.base + total bs) epilogue := by
  have hbrk := hw.brk
  refine ⟨⟨?_, by omega⟩, hw.last, by decide⟩
  unfold Heap.base
  omega

/-- The header behind the blocks `l`: of the next block, or of the epilogue. -/
theorem Tiled.next_header (hw : Tiled h (l ++ r)) :
    HasTag h (h.base + total l) (r.headD epilogue) := by
  cases r with
  | nil =>
    rw [List.append_nil] at hw
    exact hw.ending
  | cons b r => exact hw.header

theorem Tiled.length_lt (hw : Tiled h bs) : bs.length < turns h := by
  have hlen : ∀ {s : Nat} {ds : List Block}, Tiles h.contents s ds → ds.length ≤ total ds := by
    intro s ds
    induction ds generalizing s with
    | nil => simp
    | cons d ds ih =>
      intro ht
      have h1 := ht.1.size_ge
      have h2 := ih ht.2
      simp only [List.length_cons, total_cons]
      omega
  have h1 := hlen hw.tiles
  have h2 := hw.brk
  unfold turns
  unfold Heap.base at h2
  omega

/-- A block of the heap is not at NULL. -/
theorem behind_pos (h : Heap) (l : List Block) : h.behind l ≠ 0 := by
  unfold Heap.behind
  omega

theorem behind_append (h : Heap) (l r : List Block) : h.behind (l ++ r) = h.behind l + total r := by
  unfold Heap.behind
  rw [total_append]
  omega

end Tiled

/-! ## Surgery on a tiled heap -/

/-- From `h` to `h'` only the `n` bytes at `s` and the two cursors may change. -/
structure Edits (h h' : Heap) (s n : Nat) : Prop where
  off : AgreeOff h.contents h'.contents s n
  start : h'.mem_start_brk = h.mem_start_brk
  brk : h'.mem_brk = h.mem_brk
  listp : h'.heap_listp = h.heap_listp
  fmalloc : h'.fmalloc = h.fmalloc
  TR : h'.TR = h.TR
  Q_no : h'.Q_no = h.Q_no

theorem Edits.refl (h : Heap) (s n : Nat) : Edits h h s n :=
  ⟨agreeOff_refl _ s n, rfl, rfl, rfl, rfl, rfl, rfl⟩

theorem Edits.contents {h : Heap} {c : Contents} {s n : Nat} (hc : AgreeOff h.contents c s n) :
    Edits h { h with contents := c } s n := ⟨hc, rfl, rfl, rfl, rfl, rfl, rfl⟩

theorem Edits.mono {h h' : Heap} {s n s' n' : Nat} (e : Edits h h' s n) (h1 : s' ≤ s)
    (h2 : s + n ≤ s' + n') : Edits h h' s' n' := { e with off := e.off.mono h1 h2 }

theorem Edits.base {h h' : Heap} {s n : Nat} (e : Edits h h' s n) : h'.base = h.base := by
  unfold Heap.base
  rw [e.start]

/-- The middle of the row is laid out anew. -/
theorem Tiled.replace {h h' : Heap} {l m r v : List Block} (hw : Tiled h (l ++ (m ++ r)))
    (e : Edits h h' (h.base + total l) (total m)) (ht : total v = total m)
    (hm : Tiles h'.contents (h.base + total l) v)
    (hf : (l ++ (v ++ r)).head? = some prologue) : Tiled h' (l ++ (v ++ r)) := by
  have htot : total (l ++ (v ++ r)) = total (l ++ (m ++ r)) := by simp [ht]
  refine ⟨?_, ?_, ?_, ?_, hf, ?_, ?_, ?_, ?_⟩
  · rw [e.start]
    exact hw.aligned
  · rw [e.start]
    exact hw.start_pos
  · rw [e.start]
    exact hw.start_lt
  · rw [e.start, e.listp]
    exact hw.listp
  · rw [e.base]
    exact hw.tiles.replace hm ht e.off
  · rw [e.base, e.brk, htot]
    exact hw.brk
  · rw [e.base, htot, ← hw.last]
    apply e.off.load_eq
    simp only [total_append]
    omega
  · rw [e.brk, e.start]
    exact hw.bound

/-- The prologue stays the first block when something behind it changes. -/
theorem Tiled.first_append {h : Heap} {l r : List Block} (hw : Tiled h (l ++ r)) (hl : l ≠ [])
    (r' : List Block) : (l ++ r').head? = some prologue := by
  have hf := hw.first
  rw [List.head?_append_of_ne_nil l hl] at hf ⊢
  exact hf

/-- Any bytes may be written between the tags of a block. -/
theorem Tiled.payload {h h' : Heap} {l r : List Block} {b : Block} {n : Nat}
    (hw : Tiled h (l ++ b :: r)) (hn : n + 8 ≤ b.size) (e : Edits h h' (h.behind l) n) :
    Tiled h' (l ++ b :: r) := by
  have hoff : AgreeOff h.contents h'.contents (h.base + total l + 4) n := e.off
  have hst := hw.stands
  have h8 := hst.size_ge
  have hb : Stands h'.contents (h.base + total l) b := by
    refine ⟨hst.size_ge, hst.size_dvd, ?_, ?_⟩
    · rw [hoff.load_eq (by omega)]
      exact hst.header
    · rw [hoff.load_eq (by omega)]
      exact hst.footer
  have he : Edits h h' (h.base + total l) (total [b]) := by
    apply e.mono
    · unfold Heap.behind
      omega
    · unfold Heap.behind
      simp only [total_cons, total_nil]
      omega
  exact Tiled.replace (m := [b]) (v := [b]) hw he rfl ⟨hb, trivial⟩ hw.first

/-! ## What becomes of the used blocks -/

/-- The block `b` is at the payload address `p`. -/
def BlockAt (h : Heap) (bs : List Block) (p : Nat) (b : Block) : Prop :=
  ∃ l r, bs = l ++ b :: r ∧ p = h.behind l

/-- The cursor of the next fit is at a block. -/
def JustAt (h : Heap) (bs : List Block) : Prop := ∃ b, BlockAt h bs h.just b

/-- A free block of at least `k` bytes is at `p`. -/
def FreeAt (h : Heap) (bs : List Block) (p k : Nat) : Prop :=
  ∃ n, k ≤ n ∧ BlockAt h bs p ⟨n, false⟩

/-- Every used block outside `gone` stays, with its size and its bytes. -/
structure Keeps (h h' : Heap) (bs bs' : List Block) (gone : Nat → Prop) : Prop where
  start : h'.mem_start_brk = h.mem_start_brk
  block : ∀ p b, BlockAt h bs p b → b.used = true → ¬ gone p → BlockAt h' bs' p b
  bytes : ∀ p b, BlockAt h bs p b → b.used = true → ¬ gone p →
    Agree h.contents h'.contents (p - 4) b.size

theorem blockAt_iff {h : Heap} {bs : List Block} {p : Nat} {b : Block} :
    BlockAt h bs p b ↔ ∃ s, p = s + 4 ∧ (s, b) ∈ placed h.base bs := by
  unfold BlockAt
  constructor
  · rintro ⟨l, r, rfl, rfl⟩
    exact ⟨h.base + total l, rfl, mem_placed.mpr ⟨l, r, rfl, rfl⟩⟩
  · rintro ⟨s, rfl, hs⟩
    obtain ⟨l, r, rfl, rfl⟩ := mem_placed.mp hs
    exact ⟨l, r, rfl, rfl⟩

/-- Two blocks of a heap are the same, or one lies before the other. -/
theorem blockAt_apart {h : Heap} {bs : List Block} {p q : Nat} {b d : Block}
    (hp : BlockAt h bs p b) (hq : BlockAt h bs q d) :
    (p = q ∧ b = d) ∨ p + b.size ≤ q ∨ q + d.size ≤ p := by
  obtain ⟨s, rfl, hs⟩ := blockAt_iff.mp hp
  obtain ⟨t, rfl, ht⟩ := blockAt_iff.mp hq
  rcases placed_apart hs ht with ⟨rfl, rfl⟩ | h1 | h1
  · exact Or.inl ⟨rfl, rfl⟩
  · exact Or.inr (Or.inl (by omega))
  · exact Or.inr (Or.inr (by omega))

/-- A block start outside a stretch that is laid out anew, or at its front, stays one. -/
theorem blockAt_relaid {h h' : Heap} {l m r v : List Block} {p : Nat} {b : Block}
    (hb : h'.base = h.base) (ht : total v = total m) (hne : v ≠ [])
    (hw : Tiled h (l ++ (m ++ r))) (hp : BlockAt h (l ++ (m ++ r)) p b)
    (hout : p ≤ h.behind l ∨ h.behind l + total m ≤ p) :
    ∃ b', BlockAt h' (l ++ (v ++ r)) p b' := by
  have h8 : 8 ≤ b.size := by
    obtain ⟨l₁, r₁, he, -⟩ := hp
    rw [he] at hw
    exact hw.bounds.1
  obtain ⟨s, rfl, hs⟩ := blockAt_iff.mp hp
  rw [placed_append, placed_append, List.mem_append, List.mem_append] at hs
  unfold Heap.behind at hout
  rcases hs with hs | hs | hs
  · refine ⟨b, blockAt_iff.mpr ⟨s, rfl, ?_⟩⟩
    rw [hb, placed_append]
    exact List.mem_append_left _ hs
  · have hbd := placed_bounds hs
    have hse : s = h.base + total l := by omega
    obtain ⟨d, v, rfl⟩ := List.exists_cons_of_ne_nil hne
    refine ⟨d, l, v ++ r, rfl, ?_⟩
    unfold Heap.behind
    rw [hse, hb]
  · refine ⟨b, blockAt_iff.mpr ⟨s, rfl, ?_⟩⟩
    rw [hb, placed_append, placed_append, ht]
    exact List.mem_append_right _ (List.mem_append_right _ hs)

/-- A block outside a stretch that is laid out anew stays. -/
theorem blockAt_outside {h h' : Heap} {l m r v : List Block} {p : Nat} {b : Block}
    (hb : h'.base = h.base) (ht : total v = total m) (hw : Tiled h (l ++ (m ++ r)))
    (hp : BlockAt h (l ++ (m ++ r)) p b) (hout : p < h.behind l ∨ h.behind l + total m ≤ p) :
    BlockAt h' (l ++ (v ++ r)) p b := by
  have h8 : 8 ≤ b.size := by
    obtain ⟨l₁, r₁, he, -⟩ := hp
    rw [he] at hw
    exact hw.bounds.1
  obtain ⟨s, rfl, hs⟩ := blockAt_iff.mp hp
  refine blockAt_iff.mpr ⟨s, rfl, ?_⟩
  rw [hb]
  apply placed_replace hs ht
  intro hm
  have hbd := placed_bounds hm
  unfold Heap.behind at hout
  omega

theorem freeAt_outside {h h' : Heap} {l m r v : List Block} {p k : Nat}
    (hb : h'.base = h.base) (ht : total v = total m) (hw : Tiled h (l ++ (m ++ r)))
    (hp : FreeAt h (l ++ (m ++ r)) p k) (hout : p < h.behind l ∨ h.behind l + total m ≤ p) :
    FreeAt h' (l ++ (v ++ r)) p k := by
  obtain ⟨n, hk, hn⟩ := hp
  exact ⟨n, hk, blockAt_outside hb ht hw hn hout⟩

/-- A free block is outside every used one. -/
theorem FreeAt.outside {h : Heap} {bs : List Block} {p q k n : Nat} (hp : FreeAt h bs p k)
    (hw : Tiled h bs) (hq : BlockAt h bs q ⟨n, true⟩) : p < q ∨ q + n ≤ p := by
  obtain ⟨j, -, hj⟩ := hp
  have hj8 : 8 ≤ j := by
    obtain ⟨l, r, rfl, -⟩ := hj
    exact hw.bounds.1
  rcases blockAt_apart hj hq with ⟨-, he⟩ | h1 | h1
  · cases he
  · left
    simp only at h1
    omega
  · exact Or.inr h1

/-- A block start is not inside another block. -/
theorem blockAt_not_inside {h : Heap} {l r : List Block} {p : Nat} {b d : Block}
    (hp : BlockAt h (l ++ d :: r) p b) :
    p ≤ h.behind l ∨ h.behind l + d.size ≤ p := by
  have hd : BlockAt h (l ++ d :: r) (h.behind l) d := ⟨l, r, rfl, rfl⟩
  rcases blockAt_apart hp hd with ⟨rfl, -⟩ | h1 | h1 <;> omega

theorem Keeps.refl (h : Heap) (bs : List Block) (gone : Nat → Prop) : Keeps h h bs bs gone :=
  ⟨rfl, fun _ _ hp _ _ => hp, fun _ _ _ _ _ _ _ _ => rfl⟩

theorem Keeps.trans {h h' h'' : Heap} {bs bs' bs'' : List Block} {gone : Nat → Prop}
    (k : Keeps h h' bs bs' gone) (k' : Keeps h' h'' bs' bs'' gone) : Keeps h h'' bs bs'' gone := by
  refine ⟨k'.start.trans k.start, ?_, ?_⟩
  · intro p b hp hb hg
    exact k'.block p b (k.block p b hp hb hg) hb hg
  · intro p b hp hb hg
    exact (k.bytes p b hp hb hg).trans (k'.bytes p b (k.block p b hp hb hg) hb hg)

theorem Keeps.weaken {h h' : Heap} {bs bs' : List Block} {gone gone' : Nat → Prop}
    (k : Keeps h h' bs bs' gone) (hg : ∀ p, gone p → gone' p) : Keeps h h' bs bs' gone' :=
  ⟨k.start, fun p b hp hb hn => k.block p b hp hb fun hgo => hn (hg p hgo),
    fun p b hp hb hn => k.bytes p b hp hb fun hgo => hn (hg p hgo)⟩

/-- Surgery on a stretch whose used blocks are all in `gone`. -/
theorem Edits.keeps {h h' : Heap} {l m r v : List Block} {g : Nat → Prop}
    (e : Edits h h' (h.base + total l) (total m)) (ht : total v = total m)
    (hm : ∀ s b, (s, b) ∈ placed (h.base + total l) m → b.used = true → g (s + 4)) :
    Keeps h h' (l ++ (m ++ r)) (l ++ (v ++ r)) g := by
  refine ⟨e.start, ?_, ?_⟩
  · intro p b hp hb hg
    obtain ⟨s, rfl, hs⟩ := blockAt_iff.mp hp
    refine blockAt_iff.mpr ⟨s, rfl, ?_⟩
    rw [e.base]
    exact placed_replace hs ht fun hin => hg (hm s b hin hb)
  · intro p b hp hb hg
    obtain ⟨s, rfl, hs⟩ := blockAt_iff.mp hp
    rw [placed_append, placed_append, List.mem_append, List.mem_append] at hs
    apply e.off.agree
    rcases hs with hs | hs | hs
    · have := placed_bounds hs
      omega
    · exact absurd (hm s b hs hb) hg
    · have := placed_bounds hs
      omega

end ics_labs.mm
