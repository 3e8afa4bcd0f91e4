-- What the transpose functions leave in B, and which cells they touch on the way.
import Mathlib.Tactic.IntervalCases
import IcsLabs.Transpose

open ics_labs.commands

namespace ics_labs.transpose

/-! ## The matrices by row and column -/

/-- `A[i][j]` and `B[j][i]`, as ints. -/
def Mem.a (s : Mem) (M i j : Nat) : BitVec 32 := s.A (i * M + j)

def Mem.b (s : Mem) (N j i : Nat) : BitVec 32 := s.B (j * N + i)

/-- The state behind a read and behind a write. -/
def Mem.seen (s : Mem) (a : Access) : Mem := { s with log := s.log ++ [a] }

def Mem.put (s : Mem) (N j i : Nat) (v : BitVec 32) : Mem :=
  { s with B := Function.update s.B (j * N + i) v, log := s.log ++ [⟨.B, j, i, true⟩] }

variable {M N : Nat} {s t : Mem}

theorem index_inj {N r c r' c' : Nat} (hc : c < N) (hc' : c' < N) :
    r * N + c = r' * N + c' ↔ r = r' ∧ c = c' := by
  constructor
  · intro h
    have h1 := congrArg (· / N) h
    have h2 := congrArg (· % N) h
    simp only [Nat.add_comm _ c, Nat.add_comm _ c', Nat.add_mul_div_right _ _ (by omega : 0 < N),
      Nat.add_mul_mod_self_right, Nat.div_eq_of_lt hc, Nat.div_eq_of_lt hc', Nat.mod_eq_of_lt hc,
      Nat.mod_eq_of_lt hc'] at h1 h2
    omega
  · rintro ⟨rfl, rfl⟩
    rfl

theorem index_lt {N r c R : Nat} (hr : r < R) (hc : c < N) : r * N + c < R * N := by
  calc r * N + c < r * N + N := by omega
    _ = (r + 1) * N := by rw [Nat.succ_mul]
    _ ≤ R * N := Nat.mul_le_mul_right N hr

@[simp] theorem seen_a (a : Access) (i j : Nat) : (s.seen a).a M i j = s.a M i j := rfl
@[simp] theorem seen_b (a : Access) (j i : Nat) : (s.seen a).b N j i = s.b N j i := rfl
@[simp] theorem put_a (j i r c : Nat) (v : BitVec 32) : (s.put N j i v).a M r c = s.a M r c := rfl

theorem put_b {j i r c : Nat} (v : BitVec 32) (hi : i < N) (hc : c < N) :
    (s.put N j i v).b N r c = if r = j ∧ c = i then v else s.b N r c := by
  unfold Mem.put Mem.b
  simp only [Function.update_apply, index_inj hc hi]

@[simp] theorem put_same {j i : Nat} (v : BitVec 32) : (s.put N j i v).b N j i = v :=
  Function.update_self ..

theorem put_ne {j i r c : Nat} (v : BitVec 32) (hi : i < N) (hc : c < N) (h : r ≠ j ∨ c ≠ i) :
    (s.put N j i v).b N r c = s.b N r c := by
  rw [put_b v hi hc, if_neg (by omega)]

/-! ## The rules of the accesses -/

section Accesses

variable {α : Type} {i j r c : Nat}

theorem wp_readA {Q : BitVec 32 → Mem → Prop} (h : i * M + j < SIZE) :
    wp (readA M i j) Q s ↔ Q (s.a M i j) (s.seen ⟨.A, i, j, false⟩) := by
  unfold wp readA
  rw [if_pos h]
  constructor
  · rintro ⟨v, t, ht, hQ⟩
    cases ht
    exact hQ
  · exact fun hQ => ⟨_, _, rfl, hQ⟩

theorem wp_readB {Q : BitVec 32 → Mem → Prop} (h : j * N + i < SIZE) :
    wp (readB N j i) Q s ↔ Q (s.b N j i) (s.seen ⟨.B, j, i, false⟩) := by
  unfold wp readB
  rw [if_pos h]
  constructor
  · rintro ⟨v, t, ht, hQ⟩
    cases ht
    exact hQ
  · exact fun hQ => ⟨_, _, rfl, hQ⟩

theorem wp_writeB {Q : Unit → Mem → Prop} {v : BitVec 32} (h : j * N + i < SIZE) :
    wp (writeB N j i v) Q s ↔ Q () (s.put N j i v) := by
  unfold wp writeB
  rw [if_pos h]
  constructor
  · rintro ⟨v, t, ht, hQ⟩
    cases ht
    exact hQ
  · exact fun hQ => ⟨_, _, rfl, hQ⟩

theorem wp_copy {Q : Unit → Mem → Prop} (h : i * M + j < SIZE) (h' : r * N + c < SIZE) :
    wp (copy M N r c i j) Q s ↔
      Q () ((s.seen ⟨.A, i, j, false⟩).put N r c (s.a M i j)) := by
  unfold copy
  rw [wp_bind, wp_readA h, wp_writeB h']

end Accesses

/-! ## The cells of the matrices -/

/-- The access is to one of the `M * N` cells. -/
def Access.Inside (M N : Nat) (a : Access) : Prop :=
  match a.matrix with
  | .A => a.row < N ∧ a.col < M
  | .B => a.row < M ∧ a.col < N

/-- What a run that keeps inside the cells leaves of the memory it came from. -/
structure Kept (M N : Nat) (s t : Mem) : Prop where
  A : t.A = s.A
  inside : ∀ a ∈ t.log, a.Inside M N
  outside : ∀ k, M * N ≤ k → t.B k = s.B k

theorem Kept.seen (h : Kept M N s t) {a : Access} (ha : a.Inside M N) : Kept M N s (t.seen a) := by
  refine ⟨h.A, fun a' hm => ?_, h.outside⟩
  rcases List.mem_append.mp hm with hm | hm
  · exact h.inside a' hm
  · rw [List.mem_singleton.mp hm]
    exact ha

theorem Kept.put (h : Kept M N s t) {j i : Nat} {v : BitVec 32} (hj : j < M) (hi : i < N) :
    Kept M N s (t.put N j i v) := by
  refine ⟨h.A, (h.seen (a := ⟨.B, j, i, true⟩) ⟨hj, hi⟩).inside, fun k hk => ?_⟩
  have := index_lt hj hi
  show Function.update t.B (j * N + i) v k = s.B k
  rw [Function.update_of_ne (by omega)]
  exact h.outside k hk

theorem Kept.readA (h : Kept M N s t) {i j : Nat} (hi : i < N) (hj : j < M) :
    Kept M N s (t.seen ⟨.A, i, j, false⟩) := h.seen ⟨hi, hj⟩

theorem Kept.readB (h : Kept M N s t) {i j : Nat} (hj : j < M) (hi : i < N) :
    Kept M N s (t.seen ⟨.B, j, i, false⟩) := h.seen ⟨hj, hi⟩

theorem Kept.a (h : Kept M N s t) (i j : Nat) : t.a M i j = s.a M i j := by
  unfold Mem.a
  rw [h.A]

variable {s0 : Mem}

/-! ## 32 by 32 -/

theorem row32_spec {i j : Nat} (hi : i < 32) (hj : j + 8 ≤ 32) (hk : Kept 32 32 s0 s) :
    wp (row32 32 32 i j) (fun _ t => Kept 32 32 s0 t ∧ ∀ r c, r < 32 → c < 32 →
      t.b 32 r c = if c = i ∧ j ≤ r ∧ r < j + 8 then s0.a 32 c r else s.b 32 r c) s := by
  unfold row32
  simp (disch := simp only [SIZE]; omega) only [wp_bind, wp_readA, wp_writeB, seen_a]
  refine ⟨?_, fun r c hr hc => ?_⟩
  · repeat' first
      | with_reducible exact hk
      | with_reducible refine Kept.put ?_ ?_ ?_
      | with_reducible refine Kept.readA ?_ ?_ ?_
    all_goals omega
  · by_cases hc : c = i ∧ j ≤ r ∧ r < j + 8
    · obtain ⟨rfl, hr⟩ := hc
      obtain ⟨m, rfl⟩ := Nat.exists_eq_add_of_le hr.1
      have hm : m < 8 := by omega
      interval_cases m <;> simp (disch := omega) only [put_same, put_ne] <;> simp [hk.a]
    · simp (disch := omega) only [put_ne, seen_b]
      rw [if_neg hc]

/-- The blocks left of column `k` are done, those of column `k` above row `j`, and the one
there up to column `i`. -/
def Done32 (s0 : Mem) (k j i : Nat) (t : Mem) : Prop :=
  Kept 32 32 s0 t ∧ ∀ r c, r < 32 → c < 32 → c < k ∨ c < k + 8 ∧ r < j ∨ c < i ∧ r < j + 8 →
    t.b 32 r c = s0.a 32 c r

theorem Done32.mono {k j i k' j' i' : Nat} (h : Done32 s0 k j i t)
    (hle : ∀ r c, r < 32 → c < 32 → c < k' ∨ c < k' + 8 ∧ r < j' ∨ c < i' ∧ r < j' + 8 →
      c < k ∨ c < k + 8 ∧ r < j ∨ c < i ∧ r < j + 8) : Done32 s0 k' j' i' t :=
  ⟨h.1, fun r c hr hc hd => h.2 r c hr hc (hle r c hr hc hd)⟩

theorem transpose32_spec (h0 : Kept 32 32 s s) :
    wp (transpose32 32 32) (fun _ t => Kept 32 32 s t ∧
      ∀ r c, r < 32 → c < 32 → t.b 32 r c = s.a 32 c r) s := by
  unfold transpose32
  refine (wp_for (I := fun k t => Done32 s k 0 k t) ⟨h0, fun r c hr hc hd => by omega⟩
    fun k t _ hk hdk ht => ?_).mono fun _ t ⟨k, hk, ht⟩ => ⟨ht.1, fun r c hr hc => ?_⟩
  · refine (wp_for (I := fun j t => Done32 s k j k t) ht fun j u _ hj hdj hu => ?_).mono
      fun _ t ⟨j, hj, ht⟩ => ht.mono fun r c hr hc => by omega
    refine (wp_for (I := fun i t => i ≤ k + 8 ∧ Done32 s k j i t) ⟨by omega, hu⟩
      fun i v hki hi _ hv => ?_).mono fun _ t ⟨i, hi, _, ht⟩ => ht.mono fun r c hr hc => by omega
    refine (row32_spec (by omega) (by omega) hv.2.1).mono fun _ t ⟨hkept, ht⟩ =>
      ⟨by omega, hkept, fun r c hr hc hd => ?_⟩
    rw [ht r c hr hc]
    split_ifs with hin
    · rfl
    · exact hv.2.2 r c hr hc (by omega)
  · exact ht.2 r c hr hc (Or.inl (by omega))

/-! ## 64 by 64 -/

theorem park_spec {j k : Nat} (hj : j + 8 ≤ 64) (hk : k + 4 < 64) (hs : Kept 64 64 s0 s) :
    wp (park 64 64 j k) (fun _ t => Kept 64 64 s0 t ∧ ∀ r c, r < 64 → c < 64 →
      t.b 64 r c = if c = k ∧ j ≤ r ∧ r < j + 4 then s0.a 64 c r
        else if c = k + 4 ∧ j ≤ r ∧ r < j + 4 then s0.a 64 (c - 4) (r + 4) else s.b 64 r c) s := by
  unfold park
  simp (disch := simp only [SIZE]; omega) only [wp_bind, wp_copy, seen_a, put_a]
  refine ⟨?_, fun r c hr hc => ?_⟩
  · repeat' first
      | with_reducible exact hs
      | with_reducible refine Kept.put ?_ ?_ ?_
      | with_reducible refine Kept.readA ?_ ?_ ?_
    all_goals omega
  · by_cases hr : j ≤ r ∧ r < j + 4
    · obtain ⟨m, rfl⟩ := Nat.exists_eq_add_of_le hr.1
      have hm : m < 4 := by omega
      by_cases hck : c = k
      · subst hck
        interval_cases m <;>
          simp (disch := omega) only [put_same, put_ne, seen_b] <;> simp [hs.a]
      · by_cases hck4 : c = k + 4
        · subst hck4
          interval_cases m <;>
            simp (disch := omega) only [put_same, put_ne, seen_b] <;> simp [hs.a, Nat.add_assoc]
        · simp (disch := omega) only [put_ne, seen_b]
          simp [hck, hck4]
    · simp (disch := omega) only [put_ne, seen_b]
      rw [if_neg (by omega), if_neg (by omega)]

theorem swap_spec {i k : Nat} (hi : i + 8 ≤ 64) (hk : k + 4 < 64) (hs : Kept 64 64 s0 s) :
    wp (swap 64 64 i k) (fun _ t => Kept 64 64 s0 t ∧ ∀ r c, r < 64 → c < 64 →
      t.b 64 r c = if r = k + 4 ∧ i ≤ c ∧ c < i + 4 then s.b 64 (r - 4) (c + 4)
        else if (r = k ∨ r = k + 4) ∧ i + 4 ≤ c ∧ c < i + 8 then s0.a 64 c r
        else s.b 64 r c) s := by
  unfold swap
  simp (disch := simp only [SIZE]; omega) only [wp_bind, wp_copy, wp_readA, wp_readB, wp_writeB,
    seen_a, put_a, seen_b]
  refine ⟨?_, fun r c hr hc => ?_⟩
  · repeat' first
      | with_reducible exact hs
      | with_reducible refine Kept.put ?_ ?_ ?_
      | with_reducible refine Kept.readA ?_ ?_ ?_
      | with_reducible refine Kept.readB ?_ ?_ ?_
    all_goals omega
  · by_cases hc : i ≤ c ∧ c < i + 8
    · obtain ⟨m, rfl⟩ := Nat.exists_eq_add_of_le hc.1
      have hm : m < 8 := by omega
      by_cases hrk : r = k
      · subst hrk
        interval_cases m <;>
          simp (disch := omega) only [put_same, put_ne, seen_b] <;> simp [hs.a]
      · by_cases hrk4 : r = k + 4
        · subst hrk4
          interval_cases m <;>
            simp (disch := omega) only [put_same, put_ne] <;> simp [hs.a, Nat.add_assoc]
        · simp (disch := omega) only [put_ne, seen_b]
          simp [hrk, hrk4]
    · simp (disch := omega) only [put_ne, seen_b]
      rw [if_neg (by omega), if_neg (by omega)]

/-- A block of 8 by 8 is done by its two passes, and the others stay as they are. -/
theorem block_spec {i j : Nat} (hi : i + 8 ≤ 64) (hj : j + 8 ≤ 64) (hs : Kept 64 64 s0 s) :
    wp (do
        for_loop i (i + 4) 1 fun k => park 64 64 j k
        for_loop j (j + 4) 1 fun k => swap 64 64 i k)
      (fun _ t => Kept 64 64 s0 t ∧ ∀ r c, r < 64 → c < 64 →
        t.b 64 r c = if j ≤ r ∧ r < j + 8 ∧ i ≤ c ∧ c < i + 8 then s0.a 64 c r
          else s.b 64 r c) s := by
  rw [wp_bind]
  -- up to column `k` the upper half is there, and the lower half is parked beside it
  refine (wp_for (I := fun k t => k ≤ i + 4 ∧ Kept 64 64 s0 t ∧ ∀ r c, r < 64 → c < 64 →
    t.b 64 r c = if j ≤ r ∧ r < j + 4 ∧ i ≤ c ∧ c < k then s0.a 64 c r
      else if j ≤ r ∧ r < j + 4 ∧ i + 4 ≤ c ∧ c < k + 4 then s0.a 64 (c - 4) (r + 4)
      else s.b 64 r c) ⟨by omega, hs, fun r c _ _ => ?_⟩ fun k t hik hk _ ⟨_, ht, hb⟩ => ?_).mono
    fun _ u ⟨k, hk, hki, hu, hub⟩ => ?_
  · rw [if_neg (by omega), if_neg (by omega)]
  · refine (park_spec hj (by omega) ht).mono fun _ v ⟨hv, hvb⟩ => ⟨by omega, hv, fun r c hr hc => ?_⟩
    rw [hvb r c hr hc, hb r c hr hc]
    split_ifs <;> first | rfl | omega
  obtain rfl : k = i + 4 := by omega
  -- down to row `k` both halves are in their place
  refine (wp_for (I := fun k t => k ≤ j + 4 ∧ Kept 64 64 s0 t ∧ ∀ r c, r < 64 → c < 64 →
    t.b 64 r c = if (j ≤ r ∧ r < k ∨ j + 4 ≤ r ∧ r < k + 4) ∧ i ≤ c ∧ c < i + 8 then s0.a 64 c r
      else u.b 64 r c) ⟨by omega, hu, fun r c _ _ => ?_⟩ fun k t hjk hk _ ⟨_, ht, hb⟩ => ?_).mono
    fun _ v ⟨k, hk, hkj, hv, hvb⟩ => ⟨hv, fun r c hr hc => ?_⟩
  · rw [if_neg (by omega)]
  · refine (swap_spec hi (by omega) ht).mono fun _ v ⟨hv, hvb⟩ => ⟨by omega, hv, fun r c hr hc => ?_⟩
    by_cases hmoved : r = k + 4 ∧ i ≤ c ∧ c < i + 4
    · -- what the first pass parked in row `k` moves down
      obtain ⟨rfl, hc1, hc2⟩ := hmoved
      rw [hvb _ c hr hc, if_pos (by omega), if_pos (by omega), Nat.add_sub_cancel,
        hb k (c + 4) (by omega) (by omega), if_neg (by omega), hub k (c + 4) (by omega) (by omega),
        if_neg (by omega), if_pos (by omega), Nat.add_sub_cancel]
    · rw [hvb r c hr hc, if_neg hmoved, hb r c hr hc, hub r c hr hc]
      split_ifs <;> first | rfl | omega
  · rw [hvb r c hr hc, hub r c hr hc]
    split_ifs <;> first | rfl | omega

/-- The rows of blocks above row `j` are done, and those of row `j` left of column `i`. -/
def Done64 (s0 : Mem) (j i : Nat) (t : Mem) : Prop :=
  Kept 64 64 s0 t ∧ ∀ r c, r < 64 → c < 64 → r < j ∨ r < j + 8 ∧ c < i → t.b 64 r c = s0.a 64 c r

theorem transpose64_spec (h0 : Kept 64 64 s s) :
    wp (transpose64 64 64) (fun _ t => Kept 64 64 s t ∧
      ∀ r c, r < 64 → c < 64 → t.b 64 r c = s.a 64 c r) s := by
  unfold transpose64
  refine (wp_for (I := fun j t => Done64 s j 0 t) ⟨h0, fun r c hr hc hd => by omega⟩
    fun j t _ hj hdj ht => ?_).mono fun _ t ⟨j, hj, ht⟩ => ⟨ht.1, fun r c hr hc => ?_⟩
  · refine (wp_for (I := fun i t => Done64 s j i t) ht fun i u _ hi hdi hu => ?_).mono
      fun _ t ⟨i, hi, ht⟩ => ⟨ht.1, fun r c hr hc hd => ht.2 r c hr hc (by omega)⟩
    refine (block_spec (by omega) (by omega) hu.1).mono fun _ t ⟨hkept, ht⟩ =>
      ⟨hkept, fun r c hr hc hd => ?_⟩
    rw [ht r c hr hc]
    split_ifs with hin
    · rfl
    · exact hu.2 r c hr hc (by omega)
  · exact ht.2 r c hr hc (Or.inl (by omega))

/-! ## 61 by 67, and the plain one -/

/-- The cells of a set are copied, and so say the accesses. -/
def Copied (M N : Nat) (s0 : Mem) (done : Nat → Nat → Prop) (t : Mem) : Prop :=
  t.A = s0.A ∧ ∀ r c, c < N → done r c → t.b N r c = s0.a M c r ∧ ⟨.B, r, c, true⟩ ∈ t.log

theorem Copied.mono {done done' : Nat → Nat → Prop} (h : Copied M N s0 done t)
    (hle : ∀ r c, c < N → done' r c → done r c) : Copied M N s0 done' t :=
  ⟨h.1, fun r c hc hd => h.2 r c hc (hle r c hc hd)⟩

theorem copy_spec {i j : Nat} {done : Nat → Nat → Prop} (hi : i < N) (hA : i * M + j < SIZE)
    (hB : j * N + i < SIZE) (h : Copied M N s0 done s) :
    wp (copy M N j i i j) (fun _ => Copied M N s0 fun r c => done r c ∨ r = j ∧ c = i) s := by
  rw [wp_copy hA hB]
  refine ⟨h.1, fun r c hc hd => ?_⟩
  by_cases hrc : r = j ∧ c = i
  · obtain ⟨rfl, rfl⟩ := hrc
    refine ⟨?_, by simp [Mem.put]⟩
    rw [put_same]
    unfold Mem.a
    rw [h.1]
  · obtain ⟨hb, hm⟩ := h.2 r c hc (by tauto)
    refine ⟨?_, by simp [Mem.put, Mem.seen, hm]⟩
    rw [put_b _ hi hc, if_neg hrc]
    exact hb

/-- The loop runs past row 60: the last block of rows is a whole one. -/
theorem transpose61_spec (s : Mem) :
    wp (transpose61 61 67) (fun _ => Copied 61 67 s fun r _ => r < 64) s := by
  unfold transpose61
  refine (wp_for (I := fun j t => 8 ∣ j ∧ Copied 61 67 s (fun r _ => r < j) t)
    ⟨by simp, rfl, fun r c _ hd => by omega⟩ fun j t _ hj _ ⟨hdj, ht⟩ => ?_).mono
    fun _ t ⟨j, hj, hdj, ht⟩ => ht.mono fun r c hc hd => by omega
  refine (wp_for (I := fun i t => Copied 61 67 s (fun r c => r < j ∨ r < j + 8 ∧ c < i) t)
    (ht.mono fun r c hc hd => by omega) fun i u _ hi _ hu => ?_).mono
    fun _ t ⟨i, hi, ht⟩ => ⟨by omega, ht.mono fun r c hc hd => by omega⟩
  refine (wp_for (I := fun k t => Copied 61 67 s
      (fun r c => (r < j ∨ r < j + 8 ∧ c < i) ∨ r < k ∧ c = i) t)
    (hu.mono fun r c hc hd => by omega) fun k v hjk hk _ hv => ?_).mono
    fun _ t ⟨k, hk, ht⟩ => ht.mono fun r c hc hd => by omega
  refine (copy_spec hi (by simp only [SIZE]; omega) (by simp only [SIZE]; omega) hv).mono
    fun _ t ht => ht.mono fun r c hc hd => by omega

theorem trans_spec (hsize : M * N ≤ SIZE) (s : Mem) :
    wp (trans M N) (fun _ => Copied M N s fun r _ => r < M) s := by
  unfold trans
  refine (wp_for (I := fun i t => Copied M N s (fun r c => r < M ∧ c < i) t)
    ⟨rfl, fun r c _ hd => by omega⟩ fun i t _ hi _ ht => ?_).mono
    fun _ t ⟨i, hi, ht⟩ => ht.mono fun r c hc hd => by omega
  refine (wp_for (I := fun j t => Copied M N s (fun r c => (r < M ∧ c < i) ∨ r < j ∧ c = i) t)
    (ht.mono fun r c hc hd => by omega) fun j u _ hj _ hu => ?_).mono
    fun _ t ⟨j, hj, ht⟩ => ht.mono fun r c hc hd => by omega
  have hA := index_lt hi hj
  have hB := index_lt hj hi
  rw [Nat.mul_comm N M] at hA
  exact (copy_spec hi (by omega) (by omega) hu).mono
    fun _ t ht => ht.mono fun r c hc hd => by omega

/-! ## The laws -/

/-- The three shapes that the lab asks for. -/
def Supported (M N : Nat) : Prop := (M, N) ∈ [(32, 32), (64, 64), (61, 67)]

instance : Decidable (Supported M N) := inferInstanceAs (Decidable (_ ∈ _))

theorem submit_32 : transpose_submit 32 32 = transpose32 32 32 := by
  unfold transpose_submit
  simp

theorem submit_64 : transpose_submit 64 64 = transpose64 64 64 := by
  unfold transpose_submit
  simp

theorem submit_61 : transpose_submit 61 67 = transpose61 61 67 := by
  unfold transpose_submit
  simp

theorem kept_start (M N : Nat) (A B : Nat → BitVec 32) : Kept M N (start A B) (start A B) :=
  ⟨rfl, fun _ h => absurd h List.not_mem_nil, fun _ _ => rfl⟩

/-- Each shape ends with A as it was and the transpose in B. -/
theorem submit_spec (h : Supported M N) (A B : Nat → BitVec 32) :
    wp (transpose_submit M N) (fun _ t => t.A = A ∧
      ∀ r c, r < M → c < N → t.b N r c = (start A B).a M c r) (start A B) := by
  simp only [Supported, List.mem_cons, Prod.mk.injEq, List.not_mem_nil, or_false] at h
  rcases h with ⟨rfl, rfl⟩ | ⟨rfl, rfl⟩ | ⟨rfl, rfl⟩
  · rw [submit_32]
    exact (transpose32_spec (kept_start ..)).mono fun _ t ht => ⟨ht.1.A, ht.2⟩
  · rw [submit_64]
    exact (transpose64_spec (kept_start ..)).mono fun _ t ht => ⟨ht.1.A, ht.2⟩
  · rw [submit_61]
    exact (transpose61_spec _).mono fun _ t ht => ⟨ht.1, fun r c hr hc => (ht.2 r c hc (by omega)).1⟩

/-- The submission ends with the transpose of A in B and A as it was, which the check confirms
and in which the plain one agrees. -/
theorem the_submission_transposes (h : Supported M N) (A B : Nat → BitVec 32) :
    ∃ s t, transpose_submit M N (start A B) = some ((), s) ∧
      trans M N (start A B) = some ((), t) ∧ s.A = A ∧
      (∀ i < N, ∀ j < M, s.B (j * N + i) = A (i * M + j) ∧ s.B (j * N + i) = t.B (j * N + i)) ∧
      is_transpose M N s = true := by
  have hsize : M * N ≤ SIZE := by
    simp only [Supported, List.mem_cons, Prod.mk.injEq, List.not_mem_nil, or_false] at h
    rcases h with ⟨rfl, rfl⟩ | ⟨rfl, rfl⟩ | ⟨rfl, rfl⟩ <;> decide
  obtain ⟨_, s, hs, hA, hsb⟩ := submit_spec h A B
  obtain ⟨_, t, ht, _, htb⟩ := trans_spec hsize (start A B)
  refine ⟨s, t, hs, ht, hA, fun i hi j hj => ⟨hsb j i hj hi, ?_⟩, ?_⟩
  · exact (hsb j i hj hi).trans (htb j i hi hj).1.symm
  · unfold is_transpose
    simp only [List.all_eq_true, List.mem_range, beq_iff_eq]
    intro i hi j hj
    rw [hA]
    exact (hsb j i hj hi).symm

/-- A matrix that counts, over a clean B. -/
theorem a_counting_matrix_is_transposed :
    let A := fun k => BitVec.ofNat 32 k
    ∃ s t, transpose_submit 61 67 (start A 0) = some ((), s) ∧
      trans 61 67 (start A 0) = some ((), t) ∧ s.A = A ∧
      (∀ i < 67, ∀ j < 61, s.B (j * 67 + i) = A (i * 61 + j) ∧ s.B (j * 67 + i) = t.B (j * 67 + i)) ∧
      is_transpose 61 67 s = true :=
  the_submission_transposes (by decide) _ _

/-- Only cells of the two matrices are touched. -/
def StaysInside (M N : Nat) (A B : Nat → BitVec 32) : Prop :=
  ∃ t, transpose_submit M N (start A B) = some ((), t) ∧ (∀ a ∈ t.log, a.Inside M N) ∧
    ∀ k, M * N ≤ k → t.B k = B k

/-- The last block of rows of 61 by 67 writes row 61. -/
theorem row_61_is_written (A B : Nat → BitVec 32) : ¬ StaysInside 61 67 A B := by
  rintro ⟨t, ht, hin, -⟩
  obtain ⟨_, t', ht', -, hcopied⟩ := transpose61_spec (start A B)
  rw [submit_61, ht'] at ht
  cases ht
  exact absurd (hin _ (hcopied 61 0 (by decide) (by decide)).2).1 (by decide)

/-- The cells are kept to exactly where blocks of 8 divide the shape. -/
theorem the_accesses_stay_inside_iff (h : Supported M N) (A B : Nat → BitVec 32) :
    StaysInside M N A B ↔ ¬ (M = 61 ∧ N = 67) := by
  simp only [Supported, List.mem_cons, Prod.mk.injEq, List.not_mem_nil, or_false] at h
  rcases h with ⟨rfl, rfl⟩ | ⟨rfl, rfl⟩ | ⟨rfl, rfl⟩
  · obtain ⟨_, t, ht, hkept, -⟩ := transpose32_spec (kept_start 32 32 A B)
    exact iff_of_true ⟨t, by rw [submit_32, ht], hkept.inside, hkept.outside⟩ (by decide)
  · obtain ⟨_, t, ht, hkept, -⟩ := transpose64_spec (kept_start 64 64 A B)
    exact iff_of_true ⟨t, by rw [submit_64, ht], hkept.inside, hkept.outside⟩ (by decide)
  · exact iff_of_false (row_61_is_written A B) (by decide)

theorem the_accesses_of_64_stay_inside : StaysInside 64 64 (fun k => BitVec.ofNat 32 k) 0 :=
  (the_accesses_stay_inside_iff (by decide) _ _).mpr (by decide)

/-- Over a clean A and a clean B, 61 by 67. -/
theorem the_edge_is_overrun : ¬ ∀ M N, Supported M N → ∀ A B, StaysInside M N A B := fun h =>
  row_61_is_written 0 0 (h 61 67 (by decide) 0 0)

end ics_labs.transpose
