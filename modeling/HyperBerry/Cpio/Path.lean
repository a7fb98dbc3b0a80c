import HyperBerry.BootLoader.PatchState
import HyperBerry.Cpio.Model

/-!
# Paths

What the string functions of the archive reader compute, in terms of the strings: `normalize` strips
every leading `./`, and `validPath` accepts `.` and the paths all of whose components are proper
(`ValidPath`).
-/

namespace HyperBerry

namespace Cpio

open Memory DeviceTree BootLoader

variable {m : Memory} {a b : ℕ} {xs ys : List UInt8}

/-- A path without its leading `./`s. -/
def strip : List UInt8 → List UInt8
  | 46 :: 47 :: xs => strip xs
  | xs => xs

/-- A component of a path that is not empty, `.` or `..`. -/
def ProperComponent (c : List UInt8) : Prop := c ≠ [] ∧ c ≠ [dot] ∧ c ≠ [dot, dot]

instance (c : List UInt8) : Decidable (ProperComponent c) := inferInstanceAs (Decidable (_ ∧ _))

/-- `.`, or a path whose components between slashes are all proper.  As an empty component is not,
it neither begins nor ends with a slash. -/
def ValidPath (xs : List UInt8) : Prop := xs = [dot] ∨ ∀ c ∈ xs.splitOn slash, ProperComponent c

instance (xs : List UInt8) : Decidable (ValidPath xs) := inferInstanceAs (Decidable (_ ∨ _))

/-! ## Stripping -/

/-- What is stripped is in front. -/
lemma strip_suffix (xs : List UInt8) : strip xs <:+ xs := by
  fun_induction strip xs with
  | case1 xs ih => exact ih.trans ⟨[46, 47], rfl⟩
  | case2 xs => exact List.suffix_refl xs

/-- Stripping shortens. -/
lemma length_strip_le (xs : List UInt8) : (strip xs).length ≤ xs.length :=
  (strip_suffix xs).length_le

/-- A suffix of a NUL-terminated string, at its place. -/
lemma cstring_of_suffix (h : m.CString a xs) (hs : ys <:+ xs) :
    m.CString (a + (xs.length - ys.length)) ys := by
  obtain ⟨zs, rfl⟩ := hs
  refine ⟨fun hmem => h.not_mem (List.mem_append_right zs hmem), ?_⟩
  have hbytes := h.bytes
  rw [List.append_assoc, hasBytes_append] at hbytes
  rw [List.length_append, Nat.add_sub_cancel]
  exact hbytes.2

/-- `normalize` moves to the stripped string. -/
lemma normalize_eq {fuel : ℕ} (h : m.CString a xs) (ha : a + xs.length < 2 ^ 64)
    (hfuel : xs.length < fuel) :
    normalize m fuel a = .ok (a + (xs.length - (strip xs).length)) := by
  induction fuel generalizing a xs with
  | zero => exact absurd hfuel (Nat.not_lt_zero _)
  | succ fuel ih =>
    rw [normalize, load8_eq_ok.mpr h.head, ok_bind]
    fun_cases strip xs with
    | case1 xs =>
      have h₁ := h.tail
      have h₂ := h₁.tail
      simp only [List.length_cons] at ha hfuel
      have hlen := length_strip_le xs
      rw [List.headD_cons, if_neg (by simp), add64_of_lt (by omega),
        load8_eq_ok.mpr h₁.head, ok_bind,
        List.headD_cons, if_pos rfl, add64_of_lt (by omega), ih h₂ (by omega) (by omega)]
      simp only [List.length_cons]
      congr 1
      omega
    | case2 _ hne =>
      rw [Nat.sub_self, Nat.add_zero]
      cases xs with
      | nil => rfl
      | cons x xs =>
        rw [List.headD_cons]
        by_cases hx : x = dot
        · rw [if_neg (by simp [hx])]
          simp only [List.length_cons] at ha
          rw [add64_of_lt (by omega), load8_eq_ok.mpr h.tail.head, ok_bind]
          cases xs with
          | nil => rfl
          | cons y xs =>
            rw [List.headD_cons, if_neg fun hy => hne xs (by rw [hx, hy])]
            rfl
        · rw [if_pos hx]
          rfl

/-! ## Comparing -/

/-- `StrEq` compares strings. -/
lemma strEqAt_eq {fuel : ℕ} (hx : m.CString a xs) (hy : m.CString b ys)
    (ha : a + xs.length < 2 ^ 64) (hb : b + ys.length < 2 ^ 64) (hfuel : xs.length < fuel) :
    strEqAt m fuel a b = .ok (decide (xs = ys)) := by
  induction fuel generalizing a b xs ys with
  | zero => exact absurd hfuel (Nat.not_lt_zero _)
  | succ fuel ih =>
    rw [strEqAt, load8_eq_ok.mpr hx.head, ok_bind, load8_eq_ok.mpr hy.head, ok_bind]
    cases xs with
    | nil =>
      cases ys with
      | nil => rfl
      | cons y ys =>
        have hne : y ≠ 0 := fun h => hy.not_mem (h ▸ List.mem_cons_self)
        rw [List.headD_nil, List.headD_cons, if_neg (by simp)]
        simp [pure, Except.pure, hne.symm]
    | cons x xs =>
      have hxne : x ≠ 0 := fun h => hx.not_mem (h ▸ List.mem_cons_self)
      cases ys with
      | nil =>
        rw [List.headD_nil, List.headD_cons, if_neg (by simp)]
        simp [pure, Except.pure, hxne]
      | cons y ys =>
        have hyne : y ≠ 0 := fun h => hy.not_mem (h ▸ List.mem_cons_self)
        rw [List.headD_cons, List.headD_cons, if_pos ⟨hxne, hyne⟩]
        simp only [List.length_cons] at ha hb hfuel
        by_cases hxy : x = y
        · rw [if_neg (by simp [hxy]), add64_of_lt (by omega), add64_of_lt (by omega),
            ih hx.tail hy.tail (by omega) (by omega) (by omega)]
          simp [hxy]
        · rw [if_pos hxy]
          simp [pure, Except.pure, hxy]

/-! ## Validity -/

/-- The end of the component at the front of a string. -/
lemma componentEnd_eq {fuel : ℕ} (h : m.CString a (xs ++ ys)) (ha : a + xs.length < 2 ^ 64)
    (hxs : slash ∉ xs) (hys : ys.headD 0 = 0 ∨ ys.headD 0 = slash) (hfuel : xs.length < fuel) :
    componentEnd m fuel a = .ok (a + xs.length) := by
  induction fuel generalizing a xs with
  | zero => exact absurd hfuel (Nat.not_lt_zero _)
  | succ fuel ih =>
    rw [componentEnd, load8_eq_ok.mpr h.head, ok_bind]
    cases xs with
    | nil =>
      rw [List.nil_append, if_pos hys]
      rfl
    | cons x xs =>
      have hx₀ : x ≠ 0 := fun hx => h.not_mem (hx ▸ List.mem_cons_self)
      have hx : x ≠ slash := fun hx => hxs (hx ▸ List.mem_cons_self)
      simp only [List.length_cons] at ha hfuel
      rw [List.cons_append, List.headD_cons, if_neg (by simp [hx₀, hx]), add64_of_lt (by omega),
        ih (by exact h.tail) (by omega) (fun hmem => hxs (List.mem_cons_of_mem x hmem)) (by omega)]
      simp only [List.length_cons]
      congr 1
      omega

/-- The test of a component. -/
lemma isBadComponent_eq (h : m.CString a (xs ++ ys)) (ha : a + xs.length < 2 ^ 64) :
    isBadComponent m a xs.length = .ok (decide (¬ ProperComponent xs)) := by
  unfold isBadComponent
  match xs, h, ha with
  | [], _, _ => rfl
  | [x], h, ha =>
    rw [List.length_singleton, if_neg (by norm_num), if_pos rfl, load8_eq_ok.mpr h.head, ok_bind]
    by_cases hx : x = dot <;> simp [pure, Except.pure, ProperComponent, hx]
  | [x, y], h, ha =>
    have hlen : [x, y].length = 2 := rfl
    rw [hlen] at ha ⊢
    rw [if_neg (by norm_num), if_neg (by norm_num), if_pos rfl, load8_eq_ok.mpr h.head, ok_bind,
      add64_of_lt (by omega), load8_eq_ok.mpr h.tail.head]
    by_cases hx : x = dot
    · by_cases hy : y = dot <;> simp [pure, Except.pure, ProperComponent, hx, hy, ok_bind]
    · simp [pure, Except.pure, ProperComponent, hx]
  | x :: y :: z :: xs, _, _ =>
    simp only [List.length_cons]
    rw [if_neg (by omega), if_neg (by omega), if_neg (by omega)]
    simp [ProperComponent]

/-- A string is a component alone, or a component, a slash and more. -/
lemma component_cases (xs : List UInt8) :
    (slash ∉ xs ∧ xs.splitOn slash = [xs]) ∨
      ∃ c ys, xs = c ++ slash :: ys ∧ slash ∉ c ∧ xs.splitOn slash = c :: ys.splitOn slash := by
  by_cases h : slash ∈ xs
  · right
    obtain ⟨c, ys, rfl, hc⟩ := List.eq_append_cons_of_mem h
    exact ⟨c, ys, rfl, hc, List.splitOn_append_cons_self_of_not_mem hc ys⟩
  · exact .inl ⟨h, List.splitOn_eq_singleton h⟩

/-- The loop over the components. -/
lemma validComponents_eq {fuel : ℕ} (h : m.CString a xs) (ha : a + xs.length < 2 ^ 64)
    (hne : xs ≠ []) (hfuel : xs.length + 1 < fuel) :
    validComponents m fuel a = .ok (decide (∀ c ∈ xs.splitOn slash, ProperComponent c)) := by
  have hloop : 2 ^ 64 = loopFuel := by unfold loopFuel; rfl
  induction fuel generalizing a xs with
  | zero => exact absurd hfuel (Nat.not_lt_zero _)
  | succ fuel ih =>
    have hhead : xs.headD 0 ≠ 0 := by
      cases xs with
      | nil => exact absurd rfl hne
      | cons x xs => exact fun hx => h.not_mem (hx ▸ List.mem_cons_self)
    rw [validComponents, load8_eq_ok.mpr h.head, ok_bind, if_neg hhead]
    obtain ⟨hslash, hsplit⟩ | ⟨c, ys, rfl, hc, hsplit⟩ := component_cases xs
    · have h' : m.CString a (xs ++ []) := by rwa [List.append_nil]
      have hend := cstring_of_suffix h (List.nil_suffix)
      rw [List.length_nil, Nat.sub_zero] at hend
      rw [componentEnd_eq h' ha hslash (.inl rfl) (by omega), ok_bind, Nat.add_sub_cancel_left,
        isBadComponent_eq h' ha, ok_bind, hsplit]
      by_cases hp : ProperComponent xs
      · rw [if_neg (by simp [hp]), load8_eq_ok.mpr hend.head, ok_bind, List.headD_nil, if_pos rfl]
        cases fuel with
        | zero => omega
        | succ fuel =>
          rw [validComponents, load8_eq_ok.mpr hend.head, ok_bind, List.headD_nil, if_pos rfl]
          simp [pure, Except.pure, hp]
      · rw [if_pos (by simp [hp])]
        simp [pure, Except.pure, hp]
    · have hlen : c.length + ys.length + 1 = (c ++ slash :: ys).length := by
        simp [Nat.add_assoc]
      have hrest := cstring_of_suffix h (List.suffix_append c (slash :: ys))
      have hpos : (c ++ slash :: ys).length - (slash :: ys).length = c.length := by simp
      rw [hpos] at hrest
      rw [componentEnd_eq h (by omega) hc (.inr rfl) (by omega), ok_bind, Nat.add_sub_cancel_left,
        isBadComponent_eq h (by omega), ok_bind, hsplit]
      by_cases hp : ProperComponent c
      · rw [if_neg (by simp [hp]), load8_eq_ok.mpr hrest.head, ok_bind, List.headD_cons,
          if_neg (by decide), add64_of_lt (by omega), load8_eq_ok.mpr hrest.tail.head, ok_bind]
        cases ys with
        | nil =>
          rw [List.headD_nil, if_pos rfl]
          simp [pure, Except.pure, ProperComponent]
        | cons y ys =>
          have hy : y ≠ 0 := fun hy => hrest.tail.not_mem (hy ▸ List.mem_cons_self)
          rw [List.headD_cons, if_neg hy, ih hrest.tail (by omega) (by simp) (by omega)]
          simp [hp]
      · rw [if_pos (by simp [hp])]
        simp [pure, Except.pure, hp]

/-- `validPath` decides `ValidPath`. -/
lemma validPath_eq (h : m.CString a xs) (h₀ : 0 < a) (ha : a + xs.length < 2 ^ 64) :
    validPath m a = .ok (decide (ValidPath xs)) := by
  have hloop : 2 ^ 64 = loopFuel := by unfold loopFuel; rfl
  rw [validPath, load8_eq_ok.mpr h.head, ok_bind]
  cases xs with
  | nil =>
    rw [List.headD_nil, if_pos (.inl rfl)]
    rfl
  | cons x xs =>
    have hx₀ : x ≠ 0 := fun hx => h.not_mem (hx ▸ List.mem_cons_self)
    rw [List.headD_cons]
    by_cases hx : x = slash
    · rw [if_pos (.inr hx)]
      have hbad : ¬ ValidPath (x :: xs) := by
        rintro (hdot | hproper)
        · rw [hx] at hdot
          exact absurd (List.cons.inj hdot).1 (by decide)
        · have hsplit := List.splitOn_append_cons_self_of_not_mem (a := slash) List.not_mem_nil xs
          rw [List.nil_append] at hsplit
          rw [hx, hsplit] at hproper
          exact (hproper [] List.mem_cons_self).1 rfl
      simp [pure, Except.pure, hbad]
    · rw [if_neg (by simp [hx₀, hx]), strEq_eq h (by omega) (by decide), ok_bind]
      by_cases hdot : x :: xs = [dot]
      · rw [if_pos (by simp [hdot])]
        simp [pure, Except.pure, ValidPath, hdot]
      · rw [if_neg (by simp [hdot]), validComponents_eq h (by omega) (by simp) (by omega)]
        simp [ValidPath, hdot]

end Cpio

end HyperBerry
