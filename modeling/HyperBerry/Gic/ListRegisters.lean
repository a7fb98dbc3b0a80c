import Mathlib
import HyperBerry.Gic.Model

/-!
# Injection into list registers

`InjectIrq` looks for its virtual ID in every list register, empty ones included, and takes the
first empty register.  `injectIrq_cases` says this without the loop.

Along every run the interrupts in flight have different virtual IDs, and no injection touches one of
them (`list_registers_safe`).  Since an empty register keeps the ID of the interrupt that was in it,
an injection can fail although there is room (`injection_lost_after_eoi`); `available_iff` says
when.
-/

namespace HyperBerry

namespace Gic

variable {s s₀ t : Gic} {v i n virtId id : ℕ} {lr : ℕ → ℕ}

/-! ## Bits of a list register -/

/-- The pending bit. -/
lemma isPending_iff : IsPending v ↔ v.testBit 28 := by
  rw [IsPending, lrPending, Nat.one_shiftLeft, Nat.and_two_pow]
  cases v.testBit 28 <;> simp

/-- The active bit. -/
lemma isActive_iff : IsActive v ↔ v.testBit 29 := by
  rw [IsActive, lrActive, Nat.one_shiftLeft, Nat.and_two_pow]
  cases v.testBit 29 <;> simp

/-- The virtual ID is the number in the low ten bits. -/
lemma virtIdOf_eq (v : ℕ) : virtIdOf v = v % 2 ^ 10 := Nat.and_two_pow_sub_one_eq_mod v 10

/-- Registers that agree on the low ten bits have the same virtual ID. -/
lemma virtIdOf_congr {w : ℕ} (h : ∀ k < 10, w.testBit k = v.testBit k) :
    virtIdOf w = virtIdOf v := by
  rw [virtIdOf_eq, virtIdOf_eq]
  refine Nat.eq_of_testBit_eq fun k => ?_
  rw [Nat.testBit_mod_two_pow, Nat.testBit_mod_two_pow]
  by_cases hk : k < 10
  · rw [h k hk]
  · rw [decide_eq_false hk, Bool.false_and, Bool.false_and]

/-- The entry that is submitted has the virtual ID. -/
lemma virtIdOf_listEntry (hv : virtId < 2 ^ 10) : virtIdOf (listEntry virtId id) = virtId := by
  have hlow : virtIdOf (listEntry virtId id) = virtIdOf virtId := by
    refine virtIdOf_congr fun k hk => ?_
    have hpending : (2 ^ 28).testBit k = false := Nat.testBit_two_pow_of_ne (by omega)
    have hhw : (2 ^ 31).testBit k = false := Nat.testBit_two_pow_of_ne (by omega)
    have hphys : ((id &&& 0x3FF) <<< lrPhysShift).testBit k = false := by
      rw [Nat.testBit_shiftLeft, decide_eq_false (by unfold lrPhysShift; omega), Bool.false_and]
    have hvirt : (virtId &&& 0x3FF).testBit k = virtId.testBit k := by
      rw [show virtId &&& 0x3FF = virtId from (virtIdOf_eq virtId).trans (Nat.mod_eq_of_lt hv)]
    rw [listEntry, lrPending, lrHw, Nat.one_shiftLeft, Nat.one_shiftLeft, Nat.testBit_or,
      Nat.testBit_or, Nat.testBit_or, hpending, hhw, hphys, hvirt, Bool.or_false, Bool.or_false,
        Bool.or_false]
  rw [hlow, virtIdOf_eq, Nat.mod_eq_of_lt hv]

/-- The entry that is submitted is pending. -/
lemma isPending_listEntry (virtId id : ℕ) : IsPending (listEntry virtId id) := by
  rw [isPending_iff, listEntry, lrPending, Nat.one_shiftLeft, Nat.testBit_or, Nat.testBit_or,
    Nat.testBit_or, Nat.testBit_two_pow_self, Bool.or_true, Bool.true_or, Bool.true_or]

/-- Clearing bits above the ID field. -/
lemma testBit_and_mask {mask k : ℕ} (hk : (2 ^ 32 - 1 - mask).testBit k = true) :
    (v &&& (2 ^ 32 - 1 - mask)).testBit k = v.testBit k := by
  rw [Nat.testBit_and, hk, Bool.and_true]

/-- An acknowledgement keeps the virtual ID. -/
lemma virtIdOf_acknowledged (v : ℕ) : virtIdOf (acknowledged v) = virtIdOf v := by
  refine virtIdOf_congr fun k hk => ?_
  have hmask : (2 ^ 32 - 1 - lrPending).testBit k = true := by
    revert k
    decide
  have hactive : lrActive.testBit k = false := by
    revert k
    decide
  rw [acknowledged, Nat.testBit_or, testBit_and_mask hmask, hactive, Bool.or_false]

/-- After the end of an interrupt its register is empty. -/
lemma not_isBusy_ended (v : ℕ) : ¬ IsBusy (ended v) := by
  have hpending : (2 ^ 32 - 1 - (lrPending ||| lrActive)).testBit 28 = false := by decide
  have hactive : (2 ^ 32 - 1 - (lrPending ||| lrActive)).testBit 29 = false := by decide
  rw [IsBusy, isPending_iff, isActive_iff, ended, Nat.testBit_and, Nat.testBit_and,
    hpending, hactive]
  simp

/-- A cleared register is empty. -/
lemma not_isBusy_zero : ¬ IsBusy 0 := by decide

/-! ## Loops -/

/-- The loop that clears registers. -/
lemma clearLrs_apply (n : ℕ) (lr : ℕ → ℕ) (i : ℕ) :
    clearLrs n lr i = if i < n then 0 else lr i := by
  induction n with
  | zero => rw [clearLrs, if_neg (Nat.not_lt_zero i)]
  | succ n ih =>
    rw [clearLrs]
    by_cases hi : i = n
    · rw [hi, Function.update_self, if_pos (Nat.lt_succ_self n)]
    · rw [Function.update_of_ne hi, ih]
      by_cases hlt : i < n
      · rw [if_pos hlt, if_pos (Nat.lt_succ_of_lt hlt)]
      · rw [if_neg hlt, if_neg (by omega)]

/-- The bit that the driver looks at says whether the register is empty, in both banks. -/
lemma elsr_bit (hi : i < 64) :
    ((if i < 32 then s.elsr 0 else s.elsr 1) >>> (i % 32) &&& 1 ≠ 0) ↔ ¬ IsBusy (s.lr i) := by
  have hmod : i % 32 < 32 := Nat.mod_lt _ (by norm_num)
  have hbank (bank : ℕ) : (s.elsr bank >>> (i % 32) &&& 1 ≠ 0) ↔
      ¬ IsBusy (s.lr (32 * bank + i % 32)) := by
    have hbit : (s.elsr bank).testBit (i % 32) = decide (¬ IsBusy (s.lr (32 * bank + i % 32))) :=
      Nat.testBit_ofBits_lt _ _ hmod
    rw [Nat.testBit, Nat.land_comm] at hbit
    rw [← bne_iff_ne, hbit, decide_eq_true_eq]
  split
  case isTrue hlt =>
    rw [hbank, Nat.mod_eq_of_lt hlt, Nat.mul_zero, Nat.zero_add]
  case isFalse hge =>
    rw [hbank, show 32 * 1 + i % 32 = i by omega]

/-- The scan stops at a register with the virtual ID, and otherwise finds the first empty register.
-/
lemma scanLrs_eq (s : Gic) (virtId : ℕ) {l : List ℕ} (hl : ∀ i ∈ l, i < 64) (freeLr : Option ℕ) :
    scanLrs s (s.elsr 0) (s.elsr 1) virtId l freeLr =
      if ∃ i ∈ l, virtIdOf (s.lr i) = virtId then none
      else some (freeLr.or (l.find? fun i => ¬ IsBusy (s.lr i))) := by
  induction l generalizing freeLr with
  | nil => simp [scanLrs]
  | cons i l ih =>
    have hi : i < 64 := hl i List.mem_cons_self
    have ih := fun freeLr => ih (fun j hj => hl j (List.mem_cons_of_mem i hj)) freeLr
    rw [scanLrs]
    simp only [elsr_bit hi, ih, List.find?_cons]
    by_cases hid : s.lr i &&& 0x3FF = virtId
    · rw [if_pos hid, if_pos ⟨i, List.mem_cons_self, hid⟩]
    · have hiff : (∃ j ∈ i :: l, virtIdOf (s.lr j) = virtId) ↔
          ∃ j ∈ l, virtIdOf (s.lr j) = virtId := by
        rw [List.exists_mem_cons_iff]
        exact or_iff_right hid
      rw [if_neg hid]
      simp only [hiff]
      by_cases hbusy : IsBusy (s.lr i)
      · rw [if_neg (not_not.mpr hbusy)]
        simp [hbusy]
      · rw [if_pos hbusy]
        cases freeLr <;> simp [hbusy]

/-- A register has the virtual ID, busy or not. -/
def Carries (s : Gic) (virtId : ℕ) : Prop := ∃ i < s.numLr, virtIdOf (s.lr i) = virtId

/-- The virtual ID is pending or active. -/
def InFlight (s : Gic) (virtId : ℕ) : Prop :=
  ∃ i < s.numLr, IsBusy (s.lr i) ∧ virtIdOf (s.lr i) = virtId

/-- `InjectIrq` without its loop: it returns -1 and changes nothing when a register has the virtual
ID or all registers are busy, and otherwise submits the interrupt in an empty register. -/
lemma injectIrq_cases (hn : s.numLr ≤ 64) (virtId id : ℕ) :
    (s.Carries virtId ∧ s.injectIrq virtId id = (-1, s)) ∨
    (¬ s.Carries virtId ∧ (∀ i < s.numLr, IsBusy (s.lr i)) ∧ s.injectIrq virtId id = (-1, s)) ∨
    (¬ s.Carries virtId ∧ ∃ i < s.numLr, ¬ IsBusy (s.lr i) ∧
      s.injectIrq virtId id =
        (0, { s with lr := Function.update s.lr i (listEntry virtId id) })) := by
  have hrange : ∀ i ∈ List.range s.numLr, i < 64 :=
    fun i hi => lt_of_lt_of_le (List.mem_range.mp hi) hn
  have hscan := scanLrs_eq s virtId hrange none
  have hcarries : (∃ i ∈ List.range s.numLr, virtIdOf (s.lr i) = virtId) ↔ s.Carries virtId := by
    simp only [Carries, List.mem_range]
  rw [Option.none_or] at hscan
  by_cases hc : s.Carries virtId
  · rw [if_pos (hcarries.mpr hc)] at hscan
    exact .inl ⟨hc, by rw [injectIrq, hscan]⟩
  · rw [if_neg (hcarries.not.mpr hc)] at hscan
    right
    cases hfind : (List.range s.numLr).find? fun i => ¬ IsBusy (s.lr i) with
    | none =>
      refine .inl ⟨hc, fun i hi => ?_, by rw [injectIrq, hscan, hfind]⟩
      have hnot := List.find?_eq_none.mp hfind i (List.mem_range.mpr hi)
      simpa using hnot
    | some i =>
      have hmem := List.mem_range.mp (List.mem_of_find?_eq_some hfind)
      have hfree := List.find?_some hfind
      exact .inr ⟨hc, i, hmem, by simpa using hfree, by rw [injectIrq, hscan, hfind]⟩

/-! ## Runs -/

/-- There are between one and 64 list registers, and those in flight have different virtual IDs. -/
structure Inv (s : Gic) : Prop where
  pos : 0 < s.numLr
  le : s.numLr ≤ 64
  unique : ∀ i < s.numLr, ∀ j < s.numLr, IsBusy (s.lr i) → IsBusy (s.lr j) →
    virtIdOf (s.lr i) = virtIdOf (s.lr j) → i = j

/-- The number of list registers that `VTR` gives. -/
lemma numLr_cpuInit (s : Gic) : 0 < s.cpuInit.numLr ∧ s.cpuInit.numLr ≤ 64 := by
  have hand : s.vtr &&& 0x3F = s.vtr % 2 ^ 6 := Nat.and_two_pow_sub_one_eq_mod _ 6
  rw [cpuInit]
  dsimp only
  omega

/-- Cleared registers are not in flight. -/
lemma Inv.of_clear (hpos : 0 < s.numLr) (hle : s.numLr ≤ 64)
    (h : ∀ i < s.numLr, s.lr i = 0) : Inv s :=
  ⟨hpos, hle, fun i hi _ _ hbusy => absurd (h i hi ▸ hbusy) not_isBusy_zero⟩

/-- `Reset` starts with empty registers. -/
lemma inv_reset (s : Gic) : Inv s.reset := by
  obtain ⟨hpos, hle⟩ := numLr_cpuInit s
  refine .of_clear hpos hle fun i hi => ?_
  exact (clearLrs_apply _ _ _).trans (if_pos hi)

/-- Changing one register, when its new virtual ID is not that of another one in flight. -/
lemma Inv.update (h : Inv s) (hv : IsBusy v → ∀ j < s.numLr, j ≠ i → IsBusy (s.lr j) →
      virtIdOf (s.lr j) ≠ virtIdOf v) : Inv { s with lr := Function.update s.lr i v } := by
  refine ⟨h.pos, h.le, fun j hj k hk hbj hbk hid => ?_⟩
  dsimp only at hj hk hbj hbk hid
  by_cases hji : j = i <;> by_cases hki : k = i
  · rw [hji, hki]
  · subst hji
    rw [Function.update_self] at hbj hid
    rw [Function.update_of_ne hki] at hbk hid
    exact absurd hid.symm (hv hbj k hk hki hbk)
  · subst hki
    rw [Function.update_self] at hbk hid
    rw [Function.update_of_ne hji] at hbj hid
    exact absurd hid (hv hbk j hj hji hbj)
  · rw [Function.update_of_ne hji] at hbj hid
    rw [Function.update_of_ne hki] at hbk hid
    exact h.unique j hj k hk hbj hbk hid

/-- Every step keeps the invariant. -/
lemma Inv.step (h : Inv s) (hstep : Step s t) : Inv t := by
  cases hstep with
  | @injectIrq virtId id hv =>
    rcases injectIrq_cases h.le virtId id with ⟨-, heq⟩ | ⟨-, -, heq⟩ | ⟨hc, i, hi, hfree, heq⟩
    · rwa [heq]
    · rwa [heq]
    · rw [heq]
      refine h.update fun _ j hj _ _ hid => hc ⟨j, hj, ?_⟩
      rw [hid, virtIdOf_listEntry hv]
  | @acknowledge i hi hpending =>
    refine h.update fun _ j hj hji hbusy hid => hji ?_
    rw [virtIdOf_acknowledged] at hid
    exact h.unique j hj i hi hbusy (.inl hpending) hid
  | endOfInterrupt => exact h.update fun hbusy => absurd hbusy (not_isBusy_ended _)
  | cpuReset =>
    refine .of_clear h.pos h.le fun i hi => ?_
    exact (clearLrs_apply _ _ _).trans (if_pos hi)

/-- The invariant holds along every run. -/
lemma inv_of_run (h : Run s₀.reset s) : Inv s := by
  induction h with
  | refl => exact inv_reset s₀
  | tail _ hstep ih => exact ih.step hstep

/-- Whatever driver and guest have done since `Reset`, at most one pending or active list register
has a given virtual ID, an injection leaves every pending or active list register as it is, and one
that returns -1 changes no list register. -/
theorem list_registers_safe (h : Run s₀.reset s) :
    (∀ virtId, ∀ i < s.numLr, ∀ j < s.numLr, IsBusy (s.lr i) → IsBusy (s.lr j) →
      virtIdOf (s.lr i) = virtId → virtIdOf (s.lr j) = virtId → i = j) ∧
    ∀ virtId < 2 ^ 10, ∀ id,
      (∀ i < s.numLr, IsBusy (s.lr i) → (s.injectIrq virtId id).2.lr i = s.lr i) ∧
      ((s.injectIrq virtId id).1 = -1 → (s.injectIrq virtId id).2.lr = s.lr) := by
  have hinv := inv_of_run h
  refine ⟨fun virtId i hi j hj hbi hbj hvi hvj =>
    hinv.unique i hi j hj hbi hbj (hvi.trans hvj.symm), fun virtId hv id => ?_⟩
  rcases injectIrq_cases hinv.le virtId id with ⟨-, heq⟩ | ⟨-, -, heq⟩ | ⟨-, i, -, hfree, heq⟩
  · rw [heq]
    exact ⟨fun _ _ _ => rfl, fun _ => rfl⟩
  · rw [heq]
    exact ⟨fun _ _ _ => rfl, fun _ => rfl⟩
  · rw [heq]
    constructor
    · intro j _ hbusy
      have hne : j ≠ i := by
        rintro rfl
        exact hfree hbusy
      exact Function.update_of_ne hne _ _
    · intro hfail
      exact absurd hfail (by norm_num)

/-- Four list registers, all zero. -/
def fourRegisters : Gic := ⟨3, 0, 0, 0, fun _ => 0, 0⟩

/-- A run with one injection that is acknowledged, and a second one of another interrupt. -/
theorem list_registers_safe_two : ∃ s, Run fourRegisters.reset s ∧ IsActive (s.lr 0) ∧
    IsPending (s.lr 1) ∧ ((s.injectIrq 27 27).1 = -1 → (s.injectIrq 27 27).2.lr = s.lr) := by
  have hfirst : Step fourRegisters.reset (fourRegisters.reset.injectIrq 27 27).2 :=
    .injectIrq 27 (by norm_num)
  have hack := Step.acknowledge (s := (fourRegisters.reset.injectIrq 27 27).2) (i := 0)
    (by decide +kernel) (by decide +kernel)
  have hsecond : Step ((fourRegisters.reset.injectIrq 27 27).2.acknowledge 0)
      (((fourRegisters.reset.injectIrq 27 27).2.acknowledge 0).injectIrq 28 28).2 :=
    .injectIrq 28 (by norm_num)
  have hrun := ((Relation.ReflTransGen.single hfirst).tail hack).tail hsecond
  exact ⟨_, hrun, by decide +kernel, by decide +kernel,
    ((list_registers_safe hrun).2 27 (by norm_num) 27).2⟩

/-! ## Availability -/

/-- An injection works when it should: it returns 0 and makes the virtual ID pending when a list
register is empty and the ID is not in flight, and returns -1 only when all are busy or the ID is in
flight. -/
def Available (s : Gic) (virtId id : ℕ) : Prop :=
  ((∃ i < s.numLr, ¬ IsBusy (s.lr i)) → ¬ s.InFlight virtId →
    (s.injectIrq virtId id).1 = 0 ∧
      ∃ i < s.numLr, IsPending ((s.injectIrq virtId id).2.lr i) ∧
        virtIdOf ((s.injectIrq virtId id).2.lr i) = virtId) ∧
  ((s.injectIrq virtId id).1 = -1 → (∀ i < s.numLr, IsBusy (s.lr i)) ∨ s.InFlight virtId)

/-- No empty list register has the virtual ID of an interrupt that was in it. -/
def NoStale (s : Gic) (virtId : ℕ) : Prop :=
  ∀ i < s.numLr, ¬ IsBusy (s.lr i) → virtIdOf (s.lr i) ≠ virtId

/-- At every point of a run an injection works as it should exactly when its virtual ID is in flight
or no empty list register still has it. -/
theorem available_iff (h : Run s₀.reset s) (hv : virtId < 2 ^ 10) :
    Available s virtId id ↔ s.InFlight virtId ∨ s.NoStale virtId := by
  have hinv := inv_of_run h
  rcases injectIrq_cases hinv.le virtId id with ⟨⟨i, hi, hid⟩, heq⟩ | ⟨hc, hfull, heq⟩ |
    ⟨hc, i, hi, hfree, heq⟩
  · constructor
    · intro havail
      rw [Available, heq] at havail
      by_contra hno
      rw [not_or] at hno
      -- the register that has the ID is empty, so the injection should have gone through
      have hempty : ¬ IsBusy (s.lr i) := fun hbusy => hno.1 ⟨i, hi, hbusy, hid⟩
      have hzero := (havail.1 ⟨i, hi, hempty⟩ hno.1).1
      exact absurd hzero (by norm_num)
    · intro hcond
      have hflight : s.InFlight virtId := by
        rcases hcond with hflight | hstale
        · exact hflight
        · by_contra hno
          exact hstale i hi (fun hbusy => hno ⟨i, hi, hbusy, hid⟩) hid
      exact ⟨fun _ hno => absurd hflight hno, fun _ => .inr hflight⟩
  · have hstale : s.NoStale virtId := fun i hi _ hid => hc ⟨i, hi, hid⟩
    refine iff_of_true ⟨?_, fun _ => .inl hfull⟩ (.inr hstale)
    rintro ⟨i, hi, hempty⟩
    exact absurd (hfull i hi) hempty
  · have hstale : s.NoStale virtId := fun i hi _ hid => hc ⟨i, hi, hid⟩
    refine iff_of_true ⟨fun _ _ => ?_, fun hfail => ?_⟩ (.inr hstale)
    · rw [heq]
      refine ⟨rfl, i, hi, ?_⟩
      dsimp only
      rw [Function.update_self]
      exact ⟨isPending_listEntry virtId id, virtIdOf_listEntry hv⟩
    · rw [heq] at hfail
      exact absurd hfail (by norm_num)

/-- Two interrupts are injected, and the guest takes the first and ends it.  One list register is
empty then and still has its ID, another is pending, and a third interrupt goes through. -/
theorem available_after_injections : ∃ s, Run fourRegisters.reset s ∧
    ¬ IsBusy (s.lr 0) ∧ virtIdOf (s.lr 0) = 33 ∧ s.InFlight 34 ∧ (s.injectIrq 27 27).1 = 0 ∧
    Available s 27 27 := by
  have hfirst : Step fourRegisters.reset (fourRegisters.reset.injectIrq 33 33).2 :=
    .injectIrq 33 (by norm_num)
  have hsecond : Step (fourRegisters.reset.injectIrq 33 33).2
      ((fourRegisters.reset.injectIrq 33 33).2.injectIrq 34 34).2 := .injectIrq 34 (by norm_num)
  have hrun : Run fourRegisters.reset
      ((((fourRegisters.reset.injectIrq 33 33).2.injectIrq 34 34).2.acknowledge 0).endOfInterrupt
        0) :=
    (((Relation.ReflTransGen.single hfirst).tail hsecond).tail
      (.acknowledge (by decide +kernel) (by decide +kernel))).tail
      (.endOfInterrupt (by decide +kernel) (by decide +kernel))
  refine ⟨_, hrun, by decide +kernel, by decide +kernel,
    ⟨1, by decide +kernel, by decide +kernel, by decide +kernel⟩, by decide +kernel,
    (available_iff hrun (by norm_num)).mpr (.inr fun i hi _ => ?_)⟩
  revert i
  decide +kernel

/-- A guest takes an interrupt and ends it.  All list registers are empty then, and the same
interrupt cannot be injected again. -/
theorem injection_lost_after_eoi : ∃ s, Run fourRegisters.reset s ∧
    (∀ i < s.numLr, ¬ IsBusy (s.lr i)) ∧ (s.injectIrq 27 27).1 = -1 ∧ ¬ Available s 27 27 := by
  have hinject : Step fourRegisters.reset (fourRegisters.reset.injectIrq 27 27).2 :=
    .injectIrq 27 (by norm_num)
  have hack := Step.acknowledge (s := (fourRegisters.reset.injectIrq 27 27).2) (i := 0)
    (by decide +kernel) (by decide +kernel)
  have hend := Step.endOfInterrupt (s := (fourRegisters.reset.injectIrq 27 27).2.acknowledge 0)
    (i := 0) (by decide +kernel) (by decide +kernel)
  have hrun := ((Relation.ReflTransGen.single hinject).tail hack).tail hend
  have hempty : ∀ i < 4, ¬ IsBusy
      ((((fourRegisters.reset.injectIrq 27 27).2.acknowledge 0).endOfInterrupt 0).lr i) := by
    decide +kernel
  have hfail : ((((fourRegisters.reset.injectIrq 27 27).2.acknowledge 0).endOfInterrupt 0).injectIrq
      27 27).1 = -1 := by decide +kernel
  refine ⟨_, hrun, hempty, hfail, fun havail => ?_⟩
  -- neither are all registers busy, nor is the interrupt in flight
  rcases havail.2 hfail with hfull | ⟨i, hi, hbusy, -⟩
  · exact hempty 0 (by norm_num) (hfull 0 (by decide +kernel))
  · exact hempty i hi hbusy

end Gic

end HyperBerry
