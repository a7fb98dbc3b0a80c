import HyperBerry.Pmm.Model

/-!
# The pair bitmap

One bit for each pair of buddies, for all orders in one array.  `toggled` is the state after
flipping one bit and `bitAt` reads one; `bitmapToggle_eq` says that `bitmapToggle` flips the bit
`pairBit` of its block and returns the new value.

For a pool of at most `2 ^ 21` pages every block that lies in the pool has its bit inside the array
(`pairBit_lt`).  The bits of one order start where those of the previous order, counted by complete
pairs, end.  So the bit of a complete pair belongs to that pair alone, except that the last block of
order `o`, when it has no buddy in the pool, uses the bit of the first pair of order `o + 1`
(`eq_of_pairBit_eq`).
-/

namespace HyperBerry

namespace Pmm

/-- The address of page `p` of a pool that starts at `base`. -/
def pageAddr (base p : ℕ) : ℕ := base + pageSize * p

/-- The bit of the bitmap at an index. -/
def bitAt (s : Pmm) (i : ℕ) : Bool := (s.bitmap (i >>> 3)).testBit (i &&& 7)

/-- The state after flipping one bit of the bitmap. -/
def toggled (s : Pmm) (i : ℕ) : Pmm :=
  { s with bitmap := Function.update s.bitmap (i >>> 3) (s.bitmap (i >>> 3) ^^^ 1 <<< (i &&& 7)) }

/-- The bit of the pair of the block of order `o` at page `p`, in a pool of `n` pages. -/
def pairBit (n o p : ℕ) : ℕ := bitOffset n o + p / 2 ^ (o + 1)

@[simp] lemma toggled_base (s : Pmm) (i : ℕ) : (s.toggled i).base = s.base := rfl
@[simp] lemma toggled_size (s : Pmm) (i : ℕ) : (s.toggled i).size = s.size := rfl
@[simp] lemma toggled_freeLists (s : Pmm) (i : ℕ) : (s.toggled i).freeLists = s.freeLists := rfl
@[simp] lemma toggled_next (s : Pmm) (i : ℕ) : (s.toggled i).next = s.next := rfl

/-- A byte and a position inside it determine the bit. -/
private lemma eq_of_byte_eq {i j : ℕ} (h1 : i >>> 3 = j >>> 3) (h2 : i &&& 7 = j &&& 7) :
    i = j := by
  have hi : i &&& 7 = i % 8 := Nat.and_two_pow_sub_one_eq_mod i 3
  have hj : j &&& 7 = j % 8 := Nat.and_two_pow_sub_one_eq_mod j 3
  rw [hi, hj] at h2
  rw [Nat.shiftRight_eq_div_pow, Nat.shiftRight_eq_div_pow] at h1
  omega

/-- Flipping a bit changes that bit alone. -/
lemma bitAt_toggled (s : Pmm) (i j : ℕ) :
    (s.toggled i).bitAt j = if j = i then !s.bitAt i else s.bitAt j := by
  unfold bitAt toggled
  by_cases hbyte : j >>> 3 = i >>> 3
  · simp only [hbyte, Function.update_self, Nat.testBit_xor, Nat.shiftLeft_eq, one_mul,
      Nat.testBit_two_pow]
    by_cases hji : j = i
    · simp [hji]
    · have hbit : i &&& 7 ≠ j &&& 7 := fun h => hji (eq_of_byte_eq hbyte h.symm)
      simp [hji, hbit]
  · have hji : j ≠ i := fun h => hbyte (by rw [h])
    simp [hbyte, hji]

/-- Flipping a bit twice changes nothing. -/
@[simp] lemma toggled_toggled (s : Pmm) (i : ℕ) : (s.toggled i).toggled i = s := by
  simp only [toggled, Function.update_self, Function.update_idem, Nat.xor_assoc, Nat.xor_self,
    Nat.xor_zero, Function.update_eq_self]

/-- Flipping a bit of the same bitmap. -/
lemma toggled_bitmap_congr {s s' : Pmm} (h : s'.bitmap = s.bitmap) (i : ℕ) :
    (s'.toggled i).bitmap = (s.toggled i).bitmap := by
  rw [toggled, toggled, h]

/-- A bit inside the array is flipped and its new value returned. -/
lemma bitmapToggle_eq_of_lt {s : Pmm} {addr order : ℕ}
    (h : s.bitmapIndex addr order < 8 * bitmapBytes) :
    s.bitmapToggle addr order = some (s.toggled (s.bitmapIndex addr order),
      if (s.toggled (s.bitmapIndex addr order)).bitAt (s.bitmapIndex addr order) then 1
      else 0) := by
  have hbyte : ¬ s.bitmapIndex addr order >>> 3 ≥ bitmapBytes := by
    rw [Nat.shiftRight_eq_div_pow]
    omega
  have hmask : ∀ x k : ℕ, (x &&& 1 <<< k ≠ 0) ↔ x.testBit k = true := by
    intro x k
    rw [Nat.shiftLeft_eq, one_mul, Nat.and_two_pow]
    cases x.testBit k <;> simp
  simp only [bitmapToggle, if_neg hbyte, hmask]
  simp [bitAt, toggled]

/-- The index of a block is the bit of its pair. -/
lemma bitmapIndex_pageAddr {s : Pmm} {n o p : ℕ} (hsize : s.size = pageSize * n)
    (hlt : pageAddr s.base p < 2 ^ 64) :
    s.bitmapIndex (pageAddr s.base p) o = pairBit n o p := by
  unfold pageAddr pageSize at hlt
  have hsub : sub64 (pageAddr s.base p) s.base = 0x1000 * p := by
    unfold pageAddr pageSize
    rw [sub64_of_le (by omega) hlt]
    omega
  simp only [bitmapIndex, pairBit, hsub, hsize, pageShift, pageSize, Nat.shiftRight_eq_div_pow]
  have h1 : 0x1000 * p / 2 ^ 12 = p := by omega
  have h2 : 0x1000 * n / 2 ^ 12 = n := by omega
  rw [h1, h2]

/-! ## The bits of the orders -/

/-- The bits up to an order are at most the pages minus the blocks of that order. -/
lemma bitOffset_add_le (n o : ℕ) : bitOffset n o + n / 2 ^ o ≤ n := by
  induction o with
  | zero => simp [bitOffset]
  | succ o ih =>
    rw [bitOffset, Nat.shiftRight_eq_div_pow]
    have h : n / 2 ^ (o + 1) = n / 2 ^ o / 2 := by rw [pow_succ, Nat.div_div_eq_div_mul]
    rw [h]
    omega

/-- The bits of smaller orders come first. -/
lemma bitOffset_mono {n o o' : ℕ} (h : o ≤ o') : bitOffset n o ≤ bitOffset n o' := by
  induction o' with
  | zero => rw [Nat.le_zero.mp h]
  | succ k ih =>
    rcases Nat.lt_or_eq_of_le h with hlt | rfl
    · exact (ih (by omega)).trans (Nat.le_add_right _ _)
    · exact le_rfl

/-- The size of the bitmap in bytes. -/
lemma bitmapBytes_eq : bitmapBytes = 262142 := by decide

/-- Every block inside a pool of at most `2 ^ 21` pages has its bit inside the bitmap. -/
lemma pairBit_lt {n o p : ℕ} (hn : n ≤ 2 ^ 21) (ho : o ≤ maxOrder) (hp : p + 2 ^ o ≤ n) :
    pairBit n o p < 8 * bitmapBytes := by
  rw [bitmapBytes_eq, pairBit]
  have hoff := bitOffset_add_le n o
  have hpair : p / 2 ^ (o + 1) ≤ (n / 2 ^ o - 1) / 2 := by
    rw [pow_succ, ← Nat.div_div_eq_div_mul]
    apply Nat.div_le_div_right
    have : (p + 2 ^ o) / 2 ^ o ≤ n / 2 ^ o := Nat.div_le_div_right hp
    rw [Nat.add_div_right _ (by positivity)] at this
    omega
  have hone : 1 ≤ n / 2 ^ o := by
    rw [Nat.one_le_div_iff (by positivity)]
    omega
  have htop : n / 65536 ≤ n / 2 ^ o := by
    refine Nat.div_le_div_left ?_ (by positivity)
    calc 2 ^ o ≤ 2 ^ 16 := Nat.pow_le_pow_right (by norm_num) ho
      _ = 65536 := by norm_num
  omega

/-- The pairs of each order, counted by `pairs`, follow one another in the bitmap. -/
private lemma eq_of_offset_add_eq {n o o' q q' : ℕ} (pairs : ℕ → ℕ)
    (hpairs : ∀ k, bitOffset n (k + 1) = bitOffset n k + pairs k) (hanti : Antitone pairs)
    (hq : q < pairs o) (hq' : q' ≤ pairs o') (h : bitOffset n o + q = bitOffset n o' + q') :
    (o = o' ∧ q = q') ∨ (o = o' + 1 ∧ q = 0 ∧ q' = pairs o') := by
  rcases lt_trichotomy o o' with hlt | heq | hgt
  · -- the bits of order `o` end before those of `o'`
    have hmono := bitOffset_mono (n := n) (show o + 1 ≤ o' from hlt)
    have := hpairs o
    omega
  · subst heq
    left
    exact ⟨rfl, by omega⟩
  · right
    have hmono := bitOffset_mono (n := n) (show o' + 1 ≤ o from hgt)
    have hnext := hpairs o'
    -- an order strictly between would add at least one bit
    have ho : o = o' + 1 := by
      by_contra hne
      have hmono2 := bitOffset_mono (n := n) (show o' + 1 + 1 ≤ o by omega)
      have hpos : pairs o ≤ pairs (o' + 1) := hanti (by omega)
      have hstep := hpairs (o' + 1)
      omega
    exact ⟨ho, by omega, by omega⟩

/-- The bit of a complete pair is shared with no other pair, except that of order `o + 1` at page
`0` with the last block of order `o` when it has no buddy in the pool. -/
lemma eq_of_pairBit_eq {n o o' p p' : ℕ} (hpair : (p / 2 ^ (o + 1) + 1) * 2 ^ (o + 1) ≤ n)
    (hp' : p' + 2 ^ o' ≤ n) (h : pairBit n o p = pairBit n o' p') :
    (o = o' ∧ p / 2 ^ (o + 1) = p' / 2 ^ (o' + 1)) ∨
      (o = o' + 1 ∧ p / 2 ^ (o + 1) = 0 ∧ p' / 2 ^ (o' + 1) = n / 2 ^ (o' + 1)) := by
  refine eq_of_offset_add_eq (fun k => n / 2 ^ (k + 1)) ?_ ?_ ?_ ?_ h
  · intro k
    rw [bitOffset, Nat.shiftRight_eq_div_pow]
  · intro k k' hk
    exact Nat.div_le_div_left (Nat.pow_le_pow_right (by norm_num) (by omega)) (by positivity)
  · exact (Nat.le_div_iff_mul_le (by positivity)).mpr hpair
  · exact Nat.div_le_div_right ((Nat.le_add_right _ _).trans hp')

end Pmm

end HyperBerry
