-- Boundary tags. A stretch of memory is filled by blocks. The first and the last
-- four bytes of a block carry the same word: its size, with the used bit added.
-- A block can then be found from either side.
import IcsLabs.ByteWords

open ics_labs.byte_words

namespace ics_labs.boundary_tags

/-- A block: all its bytes, the tags among them, and whether it is in use. -/
structure Block where
  size : Nat
  used : Bool
deriving DecidableEq, Repr

/-- The word in the tags of a block. -/
def Block.tag (b : Block) : Nat := b.size + b.used.toNat

/-- The bytes that a row of blocks takes. -/
def total : List Block → Nat
  | [] => 0
  | b :: bs => b.size + total bs

/-- The block `b` stands at `s`: both its tags are there. -/
structure Stands (c : Contents) (s : Nat) (b : Block) : Prop where
  size_ge : 8 ≤ b.size
  size_dvd : 8 ∣ b.size
  header : load c s 4 = b.tag
  footer : load c (s + b.size - 4) 4 = b.tag

/-- The blocks stand one after another from `s` on. -/
def Tiles (c : Contents) : Nat → List Block → Prop
  | _, [] => True
  | s, b :: bs => Stands c s b ∧ Tiles c (s + b.size) bs

/-- The blocks with their addresses. -/
def placed : Nat → List Block → List (Nat × Block)
  | _, [] => []
  | s, b :: bs => (s, b) :: placed (s + b.size) bs

/-- No two neighbours are both free. -/
def Spaced (bs : List Block) : Prop := bs.IsChain fun b d => b.used ∨ d.used

/-- The two memories agree outside the `n` bytes from `s` on. -/
def AgreeOff (c d : Contents) (s n : Nat) : Prop := ∀ x, x < s ∨ s + n ≤ x → d x = c x

/-- The free block of `n` bytes, if there are any. -/
def leftover (n : Nat) : List Block := if n = 0 then [] else [⟨n, false⟩]

/-- The memory after both tags of `b` are written at `s`. -/
def tagged (c : Contents) (s : Nat) (b : Block) : Contents :=
  store (store c s 4 b.tag) (s + b.size - 4) 4 b.tag

/-- The memory after a used block of `n` bytes is written at `s` and a free one of `rest`
bytes behind it, if there are any. -/
def laid (c : Contents) (s n rest : Nat) : Contents :=
  if rest = 0 then tagged c s ⟨n, true⟩
  else tagged (tagged c s ⟨n, true⟩) (s + n) ⟨rest, false⟩

/-- From the rows `l` and `r` on both sides of a free block, it takes up the free
neighbour on either side, `f` and `g`. The rows `l'` and `r'` are left. -/
structure Absorbs (l r l' f g r' : List Block) : Prop where
  left : l = l' ++ f
  right : r = g ++ r'
  before : (f = [] ∧ ∀ b ∈ l'.getLast?, b.used = true) ∨ ∃ x, f = [x] ∧ x.used = false
  after : (g = [] ∧ ∀ b ∈ r'.head?, b.used = true) ∨ ∃ y, g = [y] ∧ y.used = false

/-! ## Totals -/

@[simp] theorem total_nil : total [] = 0 := rfl

@[simp] theorem total_cons (b : Block) (bs : List Block) : total (b :: bs) = b.size + total bs :=
  rfl

@[simp] theorem total_append (l r : List Block) : total (l ++ r) = total l + total r := by
  induction l with
  | nil => simp
  | cons b l ih => simp [ih, Nat.add_assoc]

@[simp] theorem total_leftover (n : Nat) : total (leftover n) = n := by
  unfold leftover
  split
  · simp_all
  · simp

/-! ## Memories that agree outside a stretch -/

theorem AgreeOff.agree {c d : Contents} {s n a k : Nat} (h : AgreeOff c d s n)
    (ha : a + k ≤ s ∨ s + n ≤ a) : Agree c d a k := by
  intro x h1 h2
  exact (h x (by omega)).symm

theorem AgreeOff.trans {c d e : Contents} {s n : Nat} (h : AgreeOff c d s n)
    (h' : AgreeOff d e s n) : AgreeOff c e s n := fun x hx => (h' x hx).trans (h x hx)

theorem AgreeOff.mono {c d : Contents} {s n s' n' : Nat} (h : AgreeOff c d s n) (h1 : s' ≤ s)
    (h2 : s + n ≤ s' + n') : AgreeOff c d s' n' := fun x hx => h x (by omega)

theorem AgreeOff.load_eq {c d : Contents} {s n a k : Nat} (h : AgreeOff c d s n)
    (ha : a + k ≤ s ∨ s + n ≤ a) : load d a k = load c a k := (load_congr (h.agree ha)).symm

theorem agreeOff_refl (c : Contents) (s n : Nat) : AgreeOff c c s n := fun _ _ => rfl

theorem agreeOff_store (c : Contents) (a k v : Nat) : AgreeOff c (store c a k v) a k := by
  intro x hx
  unfold store
  rw [if_neg (by omega)]

theorem agreeOff_move (c : Contents) (dst src n : Nat) : AgreeOff c (move c dst src n) dst n := by
  intro x hx
  unfold move
  rw [if_neg (by omega)]

theorem agreeOff_tagged (c : Contents) (s : Nat) {b : Block} (h : 4 ≤ b.size) :
    AgreeOff c (tagged c s b) s b.size := by
  apply AgreeOff.trans
  · exact (agreeOff_store c s 4 b.tag).mono (Nat.le_refl s) (by omega)
  · exact (agreeOff_store _ _ 4 b.tag).mono (by omega) (by omega)

/-! ## Blocks and rows of blocks -/

theorem Block.tag_div (b : Block) (h : 8 ∣ b.size) : b.tag / 8 * 8 = b.size := by
  have := Bool.toNat_lt b.used
  unfold Block.tag
  omega

theorem Block.tag_mod (b : Block) (h : 8 ∣ b.size) : b.tag % 2 = b.used.toNat := by
  have := Bool.toNat_lt b.used
  unfold Block.tag
  omega

theorem Stands.congr {c d : Contents} {s : Nat} {b : Block} (h : Stands c s b)
    (ha : Agree c d s b.size) : Stands d s b := by
  have h8 := h.size_ge
  refine ⟨h.size_ge, h.size_dvd, ?_, ?_⟩
  · rw [← h.header]
    exact (load_congr (ha.mono (Nat.le_refl s) (by omega))).symm
  · rw [← h.footer]
    exact (load_congr (ha.mono (by omega) (by omega))).symm

theorem stands_tagged (c : Contents) (s : Nat) {b : Block} (h : 8 ≤ b.size) (hd : 8 ∣ b.size)
    (hlt : b.tag < 2 ^ 32) : Stands (tagged c s b) s b := by
  have hlt' : b.tag < 256 ^ 4 := hlt
  refine ⟨h, hd, ?_, ?_⟩
  · unfold tagged
    rw [load_store_of_disjoint (by omega), load_store_same, Nat.mod_eq_of_lt hlt']
  · unfold tagged
    rw [load_store_same, Nat.mod_eq_of_lt hlt']

@[simp] theorem tiles_nil (c : Contents) (s : Nat) : Tiles c s [] := trivial

theorem tiles_cons {c : Contents} {s : Nat} {b : Block} {bs : List Block} :
    Tiles c s (b :: bs) ↔ Stands c s b ∧ Tiles c (s + b.size) bs := Iff.rfl

theorem tiles_append {c : Contents} {s : Nat} {l r : List Block} :
    Tiles c s (l ++ r) ↔ Tiles c s l ∧ Tiles c (s + total l) r := by
  induction l generalizing s with
  | nil => simp
  | cons b l ih =>
    rw [List.cons_append, tiles_cons, tiles_cons, ih, total_cons, Nat.add_assoc, and_assoc]

theorem Tiles.congr {c d : Contents} {s : Nat} {bs : List Block} (h : Tiles c s bs)
    (ha : Agree c d s (total bs)) : Tiles d s bs := by
  induction bs generalizing s with
  | nil => trivial
  | cons b bs ih =>
    obtain ⟨hb, hbs⟩ := h
    rw [total_cons] at ha
    exact ⟨hb.congr (ha.mono (Nat.le_refl s) (by omega)), ih hbs (ha.mono (by omega) (by omega))⟩

theorem Tiles.dvd_total {c : Contents} {s : Nat} {bs : List Block} (h : Tiles c s bs) :
    8 ∣ total bs := by
  induction bs generalizing s with
  | nil => simp
  | cons b bs ih => exact Nat.dvd_add h.1.size_dvd (ih h.2)

/-- The block that a row is split at. -/
theorem Tiles.stands {c : Contents} {s : Nat} {l r : List Block} {b : Block}
    (h : Tiles c s (l ++ b :: r)) : Stands c (s + total l) b := (tiles_append.mp h).2.1

/-- Surgery: the middle of a row is laid out anew, and the memory around it is left alone. -/
theorem Tiles.replace {c d : Contents} {s : Nat} {l m r m' : List Block}
    (h : Tiles c s (l ++ (m ++ r))) (hm : Tiles d (s + total l) m') (ht : total m' = total m)
    (hoff : AgreeOff c d (s + total l) (total m)) : Tiles d s (l ++ (m' ++ r)) := by
  rw [tiles_append, tiles_append] at h ⊢
  obtain ⟨hl, -, hr⟩ := h
  rw [ht]
  exact ⟨hl.congr (hoff.agree (by omega)), hm, hr.congr (hoff.agree (by omega))⟩

/-- The tags may be written in either order. -/
theorem tagged_eq (c : Contents) (s : Nat) {b : Block} (h : 8 ≤ b.size) :
    store (store c (s + b.size - 4) 4 b.tag) s 4 b.tag = tagged c s b :=
  store_comm c (by omega)

/-- Between the tags of the used block nothing is written. -/
theorem laid_inside (c : Contents) {s n rest x : Nat} (h1 : s + 4 ≤ x) (h2 : x < s + n - 4) :
    laid c s n rest x = c x := by
  have h3 : tagged c s ⟨n, true⟩ x = c x := by
    unfold tagged store
    rw [if_neg (by simp only; omega), if_neg (by omega)]
  unfold laid
  split
  · exact h3
  · rw [← h3]
    unfold tagged
    generalize store (store c s 4 _) _ 4 _ = d
    unfold store
    rw [if_neg (by simp only; omega), if_neg (by omega)]

theorem agreeOff_laid (c : Contents) (s : Nat) {n rest : Nat} (h : 8 ≤ n) (hd : 8 ∣ rest) :
    AgreeOff c (laid c s n rest) s (n + rest) := by
  have h1 : AgreeOff c (tagged c s ⟨n, true⟩) s n := agreeOff_tagged c s (by simp; omega)
  unfold laid
  split
  · exact h1.mono (Nat.le_refl s) (by omega)
  · apply (h1.mono (Nat.le_refl s) (by omega)).trans
    apply AgreeOff.mono
    · exact agreeOff_tagged _ (s + n) (by simp; omega)
    · omega
    · simp; omega

theorem tiles_laid (c : Contents) (s : Nat) {n rest : Nat} (h : 8 ≤ n) (hd : 8 ∣ n)
    (hr : 8 ∣ rest) (hlt : n + rest < 2 ^ 31) :
    Tiles (laid c s n rest) s (⟨n, true⟩ :: leftover rest) := by
  have h1 : Stands (tagged c s ⟨n, true⟩) s ⟨n, true⟩ := by
    apply stands_tagged c s h hd
    simp only [Block.tag, Bool.toNat_true]
    omega
  unfold laid leftover
  split
  · exact ⟨h1, trivial⟩
  · have h2 : AgreeOff (tagged c s ⟨n, true⟩)
        (tagged (tagged c s ⟨n, true⟩) (s + n) ⟨rest, false⟩) (s + n) rest :=
      agreeOff_tagged _ (s + n) (by simp; omega)
    refine ⟨h1.congr (h2.agree (by simp)), ?_, trivial⟩
    apply stands_tagged _ _ (by simp; omega) hr
    simp only [Block.tag, Bool.toNat_false]
    omega

/-! ## Places -/

theorem placed_append (s : Nat) (l r : List Block) :
    placed s (l ++ r) = placed s l ++ placed (s + total l) r := by
  induction l generalizing s with
  | nil => simp [placed]
  | cons b l ih => simp [placed, ih, Nat.add_assoc]

theorem placed_snd (s : Nat) (bs : List Block) : (placed s bs).map Prod.snd = bs := by
  induction bs generalizing s with
  | nil => rfl
  | cons b bs ih => rw [placed, List.map_cons, ih]

theorem mem_placed {s t : Nat} {b : Block} {bs : List Block} :
    (t, b) ∈ placed s bs ↔ ∃ l r, bs = l ++ b :: r ∧ t = s + total l := by
  constructor
  · intro h
    induction bs generalizing s with
    | nil => simp [placed] at h
    | cons d bs ih =>
      rcases List.mem_cons.mp h with h | h
      · cases h
        exact ⟨[], bs, rfl, rfl⟩
      · obtain ⟨l, r, rfl, rfl⟩ := ih h
        exact ⟨d :: l, r, rfl, by simp [Nat.add_assoc]⟩
  · rintro ⟨l, r, rfl, rfl⟩
    rw [placed_append]
    exact List.mem_append_right _ List.mem_cons_self

theorem placed_bounds {s t : Nat} {b : Block} {bs : List Block} (h : (t, b) ∈ placed s bs) :
    s ≤ t ∧ t + b.size ≤ s + total bs := by
  obtain ⟨l, r, rfl, rfl⟩ := mem_placed.mp h
  simp only [total_append, total_cons]
  omega

/-- Two places of a row are the same place, or one lies before the other. -/
theorem placed_apart {s t u : Nat} {b d : Block} {bs : List Block} (hb : (t, b) ∈ placed s bs)
    (hd : (u, d) ∈ placed s bs) : (t = u ∧ b = d) ∨ t + b.size ≤ u ∨ u + d.size ≤ t := by
  induction bs generalizing s with
  | nil => simp [placed] at hb
  | cons e bs ih =>
    rcases List.mem_cons.mp hb with hb | hb <;> rcases List.mem_cons.mp hd with hd | hd
    · cases hb
      cases hd
      exact Or.inl ⟨rfl, rfl⟩
    · cases hb
      exact Or.inr (Or.inl (placed_bounds hd).1)
    · cases hd
      exact Or.inr (Or.inr (placed_bounds hb).1)
    · exact ih hb hd

/-- The used blocks outside the middle stay where they are. -/
theorem placed_replace {s t : Nat} {b : Block} {l m r m' : List Block}
    (h : (t, b) ∈ placed s (l ++ (m ++ r))) (ht : total m' = total m)
    (hm : (t, b) ∉ placed (s + total l) m) : (t, b) ∈ placed s (l ++ (m' ++ r)) := by
  simp only [placed_append, List.mem_append] at h ⊢
  rw [ht]
  rcases h with h | h | h
  · exact Or.inl h
  · exact absurd h hm
  · exact Or.inr (Or.inr h)

/-! ## Spacing -/

theorem Spaced.left {l r : List Block} (h : Spaced (l ++ r)) : Spaced l :=
  List.IsChain.left_of_append h

theorem Spaced.right {l r : List Block} (h : Spaced (l ++ r)) : Spaced r :=
  List.IsChain.right_of_append h

theorem spaced_append {l r : List Block} : Spaced (l ++ r) ↔
    Spaced l ∧ Spaced r ∧ ∀ b ∈ l.getLast?, ∀ d ∈ r.head?, b.used ∨ d.used :=
  List.isChain_append

theorem spaced_cons {b : Block} {bs : List Block} :
    Spaced (b :: bs) ↔ (∀ d ∈ bs.head?, b.used ∨ d.used) ∧ Spaced bs := List.isChain_cons

/-- A used block fits between any two rows. -/
theorem Spaced.insert {l r : List Block} {b : Block} (hl : Spaced l) (hr : Spaced r)
    (hb : b.used = true) : Spaced (l ++ b :: r) := by
  rw [spaced_append, spaced_cons]
  refine ⟨hl, ⟨?_, hr⟩, ?_⟩
  · intro d _
    exact Or.inl hb
  · intro e _ d hd
    cases hd
    exact Or.inr hb

/-- A block may give way to a used one with what is left over behind it, where it was free
itself or what is left over is nothing. -/
theorem Spaced.leftover {n : Nat} {r : List Block} (hr : Spaced r)
    (h : n ≠ 0 → ∀ d ∈ r.head?, d.used = true) :
    Spaced (boundary_tags.leftover n ++ r) := by
  unfold boundary_tags.leftover
  split
  · exact hr
  · rename_i hn
    rw [List.singleton_append, spaced_cons]
    exact ⟨fun d hd => Or.inr (h hn d hd), hr⟩

/-- What stands behind a free block is used. -/
theorem Spaced.used_after_free {l r : List Block} {b : Block} (h : Spaced (l ++ b :: r))
    (hb : b.used = false) : ∀ d ∈ r.head?, d.used = true := by
  intro d hd
  have := (spaced_cons.mp h.right).1 d hd
  simpa [hb] using this

theorem Absorbs.free {l r l' f g r' : List Block} (a : Absorbs l r l' f g r') :
    (∀ b ∈ f, b.used = false) ∧ ∀ b ∈ g, b.used = false := by
  constructor
  · rcases a.before with ⟨rfl, -⟩ | ⟨x, rfl, hx⟩
    · simp
    · simpa using hx
  · rcases a.after with ⟨rfl, -⟩ | ⟨y, rfl, hy⟩
    · simp
    · simpa using hy

/-- The merged block has used neighbours. -/
theorem Absorbs.spaced {l r l' f g r' : List Block} (a : Absorbs l r l' f g r') (hl : Spaced l)
    (hr : Spaced r) (b : Block) : Spaced (l' ++ b :: r') := by
  have hl' := a.left ▸ hl
  have hr' := a.right ▸ hr
  have h1 : ∀ d ∈ l'.getLast?, d.used = true := by
    rcases a.before with ⟨-, h⟩ | ⟨x, rfl, hx⟩
    · exact h
    · intro d hd
      have := (spaced_append.mp hl').2.2 d hd x (by simp)
      simpa [hx] using this
  have h2 : ∀ d ∈ r'.head?, d.used = true := by
    rcases a.after with ⟨-, h⟩ | ⟨y, rfl, hy⟩
    · exact h
    · exact Spaced.used_after_free (l := []) hr' hy
  rw [spaced_append, spaced_cons]
  refine ⟨hl'.left, ⟨fun d hd => Or.inr (h2 d hd), hr'.right⟩, ?_⟩
  intro d hd e he
  exact Or.inl (h1 d hd)

end ics_labs.boundary_tags
