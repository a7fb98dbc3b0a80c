import HyperBerry.Vcpu.Switch

/-!
# Leaving a guest

From the vectors through `vcpu_exit` back to the caller of `vcpu_run`.  `run_switches` follows a
whole call: the guest is entered with the state in its `Vcpu`, the `Vcpu` afterwards holds the state
at the exception, the report describes the exception, and the control state of the host is as
before.
-/

namespace HyperBerry

namespace Switch

open Aarch64 Vcpu

/-! ## Saving the guest -/

section Save

variable {m : Machine} {v : Vcpu}

/-- The words that the vector has pushed are moved to the `Vcpu`. -/
lemma mem_moveScratch (table : List (ℕ × Fin 31)) (hend : (m.x 2).toNat + 448 ≤ 2 ^ 64)
    (haddr : ∀ p ∈ table, m.sp.toNat + p.1 < 2 ^ 64)
    (hdisj : ∀ p ∈ table, m.sp.toNat + p.1 + 8 ≤ (m.x 2).toNat ∨
      (m.x 2).toNat + 448 ≤ m.sp.toNat + p.1)
    (hword : ∀ p ∈ table, m.mem (m.sp.toNat + p.1) = v.get (.x p.2)) :
    (runOps (table.flatMap moveScratch) m).mem =
      saveFields (m.x 2).toNat v (table.map fun p => .x p.2) m.mem := by
  induction table generalizing m with
  | nil => rfl
  | cons p table ih =>
    have hx : (runOps (moveScratch p) m).x 2 = m.x 2 := runOps_x (by simp [moveScratch, Op.dests]) m
    have hsp : (runOps (moveScratch p) m).sp = m.sp := rfl
    have hload : m.mem (m.addr .sp p.1) = v.get (.x p.2) := by
      rw [Machine.addr_of_lt (haddr p List.mem_cons_self), Machine.base_sp,
        hword p List.mem_cons_self]
    have hmem : (runOps (moveScratch p) m).mem =
        saveFields (m.x 2).toNat v [.x p.2] m.mem := by
      simp only [moveScratch, runOps_cons, runOps_nil, Op.run, hload, Machine.read_x]
      rw [addr_field (by rwa [Machine.setX_x, if_neg (by decide)])]
      rfl
    rw [List.flatMap_cons, runOps_append, ih]
    · rw [hx, hmem]
      rfl
    · rwa [hx]
    · rw [hsp]
      exact fun q hq => haddr q (List.mem_cons_of_mem _ hq)
    · rw [hsp, hx]
      exact fun q hq => hdisj q (List.mem_cons_of_mem _ hq)
    · intro q hq
      rw [hsp, hmem, saveFields_outside _ _ _ (hdisj q (List.mem_cons_of_mem _ hq)),
        hword q (List.mem_cons_of_mem _ hq)]

/-- A list of `stp` instructions. -/
lemma mem_storePairs (table : List (Fin 31 × Fin 31)) (hend : (m.x 2).toNat + 448 ≤ 2 ^ 64)
    (htable : ∀ p ∈ table, p.2.val = p.1.val + 1)
    (hx : ∀ p ∈ table, m.x p.1 = v.get (.x p.1) ∧ m.x p.2 = v.get (.x p.2)) :
    (runOps (table.map storePair) m).mem =
      saveFields (m.x 2).toNat v (table.flatMap fun p => [.x p.1, .x p.2]) m.mem := by
  induction table generalizing m with
  | nil => rfl
  | cons p table ih =>
    have hnext : (Field.x p.1).offset + 8 = (Field.x p.2).offset := by
      simp only [Field.offset, htable p List.mem_cons_self, Nat.mul_add]
    obtain ⟨h₁, h₂⟩ := hx p List.mem_cons_self
    have hmem : ((storePair p).run m).mem =
        saveFields (m.x 2).toNat v [.x p.1, .x p.2] m.mem := by
      simp only [storePair, Op.run, hnext, addr_field hend, Machine.read_x, h₁, h₂]
      rfl
    rw [List.map_cons, runOps_cons, ih, hmem]
    · rfl
    · exact hend
    · exact fun q hq => htable q (List.mem_cons_of_mem _ hq)
    · exact fun q hq => hx q (List.mem_cons_of_mem _ hq)

/-- The uses of `save_register`. -/
lemma mem_saveRegisters (table : List (SysReg × Field)) (hend : (m.x 0).toNat + 448 ≤ 2 ^ 64)
    (hsys : ∀ p ∈ table, m.sys p.1 = v.get p.2) :
    (runOps (table.flatMap saveRegister) m).mem =
      saveFields (m.x 0).toNat v (table.map Prod.snd) m.mem := by
  induction table generalizing m with
  | nil => rfl
  | cons p table ih =>
    have hx : (runOps (saveRegister p) m).x 0 = m.x 0 :=
      runOps_x (by simp [saveRegister, Op.dests]) m
    have hmem : (runOps (saveRegister p) m).mem = saveFields (m.x 0).toNat v [p.2] m.mem := by
      simp only [saveRegister, runOps_cons, runOps_nil, Op.run, Machine.read_x,
        hsys p List.mem_cons_self]
      rw [addr_field (by rwa [Machine.setX_x, if_neg (by decide)])]
      rfl
    rw [List.flatMap_cons, runOps_append, ih, hx, hmem]
    · rfl
    · rwa [hx]
    · exact fun q hq => hsys q (List.mem_cons_of_mem _ hq)

/-- The words that `saveGeneral` writes. -/
def generalFields : List Field :=
  scratch.map (fun p => .x p.2) ++ pairs.flatMap (fun p => [.x p.1, .x p.2]) ++ [.x 30]

/-- What `saveGeneral` writes to the `Vcpu`, given that the stack holds `x0` to `x3` of the guest.
-/
lemma mem_saveGeneral (hsp : 16 ≤ m.sp.toNat) (hroom : m.sp.toNat + 32 < 2 ^ 64)
    (hend : (m.sys .tpidrEl2).toNat + 448 ≤ 2 ^ 64)
    (hdisj : (m.sys .tpidrEl2).toNat + 448 ≤ m.sp.toNat - 16 ∨
      m.sp.toNat + 32 ≤ (m.sys .tpidrEl2).toNat)
    (hword : ∀ p ∈ scratch,
      ((Op.push (.x 1) (.x 0) 16).run m).mem (m.sp.toNat - 16 + p.1) = v.get (.x p.2))
    (hx : ∀ i : Fin 31, 3 < i → m.x i = v.get (.x i)) :
    (runOps saveGeneral m).mem = saveFields (m.sys .tpidrEl2).toNat v generalFields
      ((Op.push (.x 1) (.x 0) 16).run m).mem := by
  have hscratch : ∀ p ∈ scratch, p.1 ≤ 40 := by decide
  -- the push and the load of the address of the object
  rw [saveGeneral, List.append_assoc, List.append_assoc, runOps_append]
  obtain ⟨k, hk⟩ : ∃ k, runOps [.push (.x 1) (.x 0) 16, .mrs 2 .tpidrEl2] m = k := ⟨_, rfl⟩
  have hk₂ : k.x 2 = m.sys .tpidrEl2 := by
    rw [← hk]
    rfl
  have hkx : ∀ i : Fin 31, 3 < i → k.x i = v.get (.x i) := by
    intro i hi
    rw [← hx i hi, ← hk]
    apply runOps_x
    have h₂ : i ≠ 2 := by
      rintro rfl
      exact absurd hi (by decide)
    simp [Op.dests, h₂]
  have hksp : k.sp.toNat = m.sp.toNat - 16 := by
    rw [← hk]
    exact toNat_sub_ofNat hsp
  have hkmem : k.mem = ((Op.push (.x 1) (.x 0) 16).run m).mem := by
    rw [← hk]
    rfl
  rw [hk, ← hkmem, ← hk₂]
  rw [← hk₂] at hend hdisj
  -- the registers that the vector has pushed
  have h₁ := mem_moveScratch (v := v) scratch hend
    (fun p hp => by have := hscratch p hp; omega) (fun p hp => by have := hscratch p hp; omega)
    (fun p hp => by rw [hksp, hkmem, hword p hp])
  have hx₁ : ∀ i : Fin 31, 3 < i ∨ i = 2 →
      (runOps (scratch.flatMap moveScratch) k).x i = k.x i := by
    intro i hi
    apply runOps_x
    have h₃ : i ≠ 3 := by
      rintro rfl
      exact absurd hi (by decide)
    simp [scratch, moveScratch, Op.dests, h₃]
  rw [runOps_append]
  generalize runOps (scratch.flatMap moveScratch) k = k₁ at h₁ hx₁
  have hpairs : ∀ p ∈ pairs, 3 < p.1 ∧ 3 < p.2 ∧ p.2.val = p.1.val + 1 := by decide +kernel
  have h₂ := mem_storePairs (m := k₁) (v := v) pairs (by rwa [hx₁ 2 (.inr rfl)])
    (fun p hp => (hpairs p hp).2.2) (fun p hp => by
      obtain ⟨hp₁, hp₂, -⟩ := hpairs p hp
      exact ⟨(hx₁ _ (.inl hp₁)).trans (hkx _ hp₁), (hx₁ _ (.inl hp₂)).trans (hkx _ hp₂)⟩)
  have hx₂ : ∀ i : Fin 31, (runOps (pairs.map storePair) k₁).x i = k₁.x i := by
    intro i
    apply runOps_x
    have hnil : ∀ o ∈ pairs.map storePair, o.dests = [] := by decide
    intro o ho
    simp [hnil o ho]
  rw [runOps_append]
  generalize runOps (pairs.map storePair) k₁ = k₂ at h₂ hx₂
  have h₂₂ : k₂.x 2 = k.x 2 := (hx₂ 2).trans (hx₁ 2 (.inr rfl))
  have h₃₀ : k₂.x 30 = v.get (.x 30) :=
    ((hx₂ 30).trans (hx₁ 30 (.inl (by decide)))).trans (hkx 30 (by decide))
  simp only [runOps_cons, runOps_nil, Op.run, Machine.setX_mem, Machine.read_x, h₃₀]
  rw [addr_field (by rwa [h₂₂]), h₂₂, generalFields, saveFields_append, saveFields_append, ← h₁,
    ← hx₁ 2 (.inr rfl), ← h₂]
  rfl

end Save

/-! ## The exit -/

/-- The syndrome that the vector of a kind of exception reads. -/
def syndromeOf (reason : ExitReason) (e : Machine) : UInt64 :=
  match reason with
  | .sync => e.sys .esrEl2
  | .irq => 0
  | .fiq => 0
  | .serror => e.sys .esrEl2

/-- Whether a syndrome is that of an instruction or data abort. -/
def isAbort (syndrome : UInt64) : Bool :=
  ((syndrome >>> 26) &&& 0x3F) ∈ ([0x20, 0x21, 0x24, 0x25] : List UInt64)

/-- The report of an exception. -/
def reportOf (reason : ExitReason) (e : Machine) : VcpuExit where
  reason := reason
  syndrome := syndromeOf reason e
  far := if reason = .sync ∧ isAbort (e.sys .esrEl2) then e.sys .farEl2 else 0
  hpfar := if reason = .sync ∧ isAbort (e.sys .esrEl2) then e.sys .hpfarEl2 else 0

/-- The machine after a vector and the entry that it branches to. -/
def vectored (reason : ExitReason) (e : Machine) : Machine :=
  runOps (exitOps reason) (runOps (vectorOps reason) e)

/-- The machine after the state of the guest has been saved. -/
def stopped (reason : ExitReason) (e : Machine) : Machine :=
  runOps (saveGeneral ++ saved.flatMap saveRegister) (vectored reason e)

/-- The words that `vcpu_exit` writes to the `Vcpu`. -/
lemma mem_savedFields (f : Field) : f ∈ generalFields ++ saved.map Prod.snd := by
  cases f with
  | x i =>
    have hi : ∀ i : Fin 31, .x i ∈ generalFields := by decide +kernel
    exact List.mem_append_left _ (hi i)
  | system r =>
    refine List.mem_append_right _ ?_
    cases r <;> decide
  | _ => exact List.mem_append_right _ (by decide)

section Exit

variable (reason : ExitReason) {e : Machine}

/-- A vector keeps all but `x0` and `x1` of the general-purpose registers. -/
lemma vectored_x {i : Fin 31} (h₀ : i ≠ 0) (h₁ : i ≠ 1) : (vectored reason e).x i = e.x i := by
  cases reason <;> simp [vectored, exitOps, vectorOps, pushScratch, Op.run, h₀, h₁]

/-- A vector puts the syndrome in `x0`. -/
lemma vectored_x_zero : (vectored reason e).x 0 = syndromeOf reason e := by
  cases reason <;> simp [vectored, exitOps, vectorOps, pushScratch, Op.run, syndromeOf]

/-- A vector puts the reason in `x1`. -/
lemma vectored_x_one : (vectored reason e).x 1 = reason.code := by
  cases reason <;> simp [vectored, exitOps, vectorOps, pushScratch, Op.run]

/-- A vector changes no system register. -/
lemma vectored_sys : (vectored reason e).sys = e.sys := by
  cases reason <;> rfl

/-- The stack pointer after a vector. -/
lemma vectored_sp : (vectored reason e).sp = e.sp - UInt64.ofNat 16 - UInt64.ofNat 16 := by
  cases reason <;> rfl

/-- The memory after a vector. -/
lemma vectored_mem : (vectored reason e).mem = (runOps pushScratch e).mem := by
  cases reason <;> rfl

/-- The stack of `vcpu_exit`: `reason` and `syndrome`, and the scratch registers of the guest. -/
structure ExitFrame (reason : ExitReason) (e : Machine) (mem : ℕ → UInt64) : Prop where
  code : mem (e.sp.toNat - 48) = reason.code
  syndrome : mem (e.sp.toNat - 48 + 8) = syndromeOf reason e
  x2 : mem (e.sp.toNat - 48 + 16) = e.x 2
  x3 : mem (e.sp.toNat - 48 + 24) = e.x 3
  x0 : mem (e.sp.toNat - 48 + 32) = e.x 0
  x1 : mem (e.sp.toNat - 48 + 40) = e.x 1
  other : ∀ a, a + 8 ≤ e.sp.toNat - 48 ∨ e.sp.toNat ≤ a → mem a = e.mem a

/-- Where a vector leaves the stack pointer. -/
lemma toNat_vectored_sp (hsp : 48 ≤ e.sp.toNat) :
    (vectored reason e).sp.toNat = e.sp.toNat - 32 := by
  have h₁ : (e.sp - UInt64.ofNat 16).toNat = e.sp.toNat - 16 := toNat_sub_ofNat (by omega)
  rw [vectored_sp, toNat_sub_ofNat (by omega), h₁]
  omega

/-- The memory after the third push. -/
lemma exitFrame_push (hsp : 48 ≤ e.sp.toNat) :
    ExitFrame reason e ((Op.push (.x 1) (.x 0) 16).run (vectored reason e)).mem := by
  have h₁ : (e.sp - UInt64.ofNat 16).toNat = e.sp.toNat - 16 := toNat_sub_ofNat (by omega)
  have h₂ := toNat_vectored_sp reason hsp
  have hmem : ∀ a, ((Op.push (.x 1) (.x 0) 16).run (vectored reason e)).mem a =
      if a = e.sp.toNat - 48 + 8 then syndromeOf reason e
      else if a = e.sp.toNat - 48 then reason.code
      else if a = e.sp.toNat - 32 + 8 then e.x 3
      else if a = e.sp.toNat - 32 then e.x 2
      else if a = e.sp.toNat - 16 + 8 then e.x 1
      else if a = e.sp.toNat - 16 then e.x 0 else e.mem a := by
    intro a
    have hs : ((Op.push (.x 0) (.x 1) 16).run e).sp.toNat = e.sp.toNat - 16 := h₁
    have e₁ : e.sp.toNat - 32 - 16 = e.sp.toNat - 48 := by omega
    have e₂ : e.sp.toNat - 16 - 16 = e.sp.toNat - 32 := by omega
    rw [push_mem _ _ (by omega) (by norm_num), h₂, vectored_mem, pushScratch, runOps_cons,
      runOps_cons, runOps_nil, push_mem _ _ (by omega) (by norm_num), hs,
      push_mem _ _ (by omega) (by norm_num), e₁, e₂]
    simp only [Machine.read_x, vectored_x_zero, vectored_x_one]
    rfl
  constructor
  all_goals
    intros
    rw [hmem]
  · rw [if_neg (by omega), if_pos rfl]
  · rw [if_pos rfl]
  · rw [if_neg (by omega), if_neg (by omega), if_neg (by omega), if_pos (by omega)]
  · rw [if_neg (by omega), if_neg (by omega), if_pos (by omega)]
  · rw [if_neg (by omega), if_neg (by omega), if_neg (by omega), if_neg (by omega),
      if_neg (by omega), if_pos (by omega)]
  · rw [if_neg (by omega), if_neg (by omega), if_neg (by omega), if_neg (by omega),
      if_pos (by omega)]
  · rw [if_neg (by omega), if_neg (by omega), if_neg (by omega), if_neg (by omega),
      if_neg (by omega), if_neg (by omega)]

/-- Saving the guest changes no system register. -/
lemma stopped_sys : (stopped reason e).sys = e.sys := by
  have hnil : ∀ o ∈ saveGeneral ++ saved.flatMap saveRegister, o.sysDests = [] := by decide +kernel
  funext r
  rw [stopped, runOps_sys fun o ho => by simp [hnil o ho], vectored_sys]

/-- The stack pointer after the guest has been saved. -/
lemma stopped_sp :
    (stopped reason e).sp = e.sp - UInt64.ofNat 16 - UInt64.ofNat 16 - UInt64.ofNat 16 := by
  rw [stopped, runOps_append, runOps_sp (by decide +kernel), ← vectored_sp]
  rfl

/-- Where the stack pointer is after the guest has been saved. -/
lemma toNat_stopped_sp (hsp : 48 ≤ e.sp.toNat) :
    (stopped reason e).sp.toNat = e.sp.toNat - 48 := by
  have h := toNat_vectored_sp reason hsp
  rw [stopped_sp, ← vectored_sp reason, toNat_sub_ofNat (by omega), h]
  omega

/-- The memory after the guest has been saved. -/
lemma stopped_mem (hsp : 48 ≤ e.sp.toNat) (hend : (e.sys .tpidrEl2).toNat + 448 ≤ 2 ^ 64)
    (hdisj : (e.sys .tpidrEl2).toNat + 448 ≤ e.sp.toNat - 48 ∨
      e.sp.toNat ≤ (e.sys .tpidrEl2).toNat) :
    (stopped reason e).mem = saveFields (e.sys .tpidrEl2).toNat (guestState e)
      (generalFields ++ saved.map Prod.snd)
      ((Op.push (.x 1) (.x 0) 16).run (vectored reason e)).mem := by
  have hlt := e.sp.toNat_lt
  have hs := toNat_vectored_sp reason hsp
  have hframe := exitFrame_push reason hsp
  have hsub : e.sp.toNat - 32 - 16 = e.sp.toNat - 48 := by omega
  have hgeneral : (runOps saveGeneral (vectored reason e)).mem =
      saveFields (e.sys .tpidrEl2).toNat (guestState e) generalFields
        ((Op.push (.x 1) (.x 0) 16).run (vectored reason e)).mem := by
    have h := mem_saveGeneral (m := vectored reason e) (v := guestState e) (by omega) (by omega)
      (by rwa [vectored_sys]) (by rw [vectored_sys]; omega)
      (by
        rw [hs, hsub]
        intro p hp
        simp only [scratch, List.mem_cons, List.not_mem_nil, or_false] at hp
        obtain rfl | rfl | rfl | rfl := hp
        · exact hframe.x0
        · exact hframe.x1
        · exact hframe.x2
        · exact hframe.x3)
      (fun i hi => by
        refine vectored_x reason ?_ ?_
        · rintro rfl
          exact absurd hi (by decide)
        · rintro rfl
          exact absurd hi (by decide))
    rwa [vectored_sys] at h
  have hx : (runOps saveGeneral (vectored reason e)).x 0 = e.sys .tpidrEl2 := by
    rw [← vectored_sys reason]
    rfl
  have hsys : ∀ p ∈ saved, (runOps saveGeneral (vectored reason e)).sys p.1 =
      (guestState e).get p.2 := by
    have hnil : ∀ o ∈ saveGeneral, o.sysDests = [] := by decide +kernel
    have hfield : ∀ p ∈ saved, fieldOf p.1 = some p.2 := by decide +kernel
    intro p hp
    rw [runOps_sys fun o ho => by simp [hnil o ho], vectored_sys, guestState_get _ (hfield p hp)]
  rw [stopped, runOps_append, mem_saveRegisters saved (by rwa [hx]) hsys, hx, hgeneral,
    saveFields_append]

/-- What the memory holds when the report is due. -/
structure Stopped (e : Machine) (mem : ℕ → UInt64) : Prop where
  code : mem (e.sp.toNat - 48) = reason.code
  syndrome : mem (e.sp.toNat - 48 + 8) = syndromeOf reason e
  vcpu : VcpuAt mem (e.sys .tpidrEl2).toNat (guestState e)
  other : ∀ a, a + 8 ≤ e.sp.toNat - 48 ∨ e.sp.toNat ≤ a →
    a + 8 ≤ (e.sys .tpidrEl2).toNat ∨ (e.sys .tpidrEl2).toNat + 448 ≤ a → mem a = e.mem a

/-- The state of the guest is saved, and its report is on the stack. -/
lemma stopped_spec (hsp : 48 ≤ e.sp.toNat) (hend : (e.sys .tpidrEl2).toNat + 448 ≤ 2 ^ 64)
    (hdisj : (e.sys .tpidrEl2).toNat + 448 ≤ e.sp.toNat - 48 ∨
      e.sp.toNat ≤ (e.sys .tpidrEl2).toNat) : Stopped reason e (stopped reason e).mem := by
  have hframe := exitFrame_push reason hsp
  rw [stopped_mem reason hsp hend hdisj]
  refine ⟨?_, ?_, vcpuAt_saveFields _ _ _ mem_savedFields, ?_⟩
  · rw [saveFields_outside _ _ _ (by omega), hframe.code]
  · rw [saveFields_outside _ _ _ (by omega), hframe.syndrome]
  · intro a ha hv
    rw [saveFields_outside _ _ _ hv, hframe.other a ha]

/-! ## The report and the way back -/

variable {m n : Machine}

/-- Filling the report changes no system register. -/
lemma fillReport_sys (n : Machine) : (runOps fillReport n).sys = n.sys := rfl

/-- Filling the report does not move the stack pointer. -/
lemma fillReport_sp (n : Machine) : (runOps fillReport n).sp = n.sp := rfl

/-- Filling the report. -/
lemma fillReport_spec (hsp : 48 ≤ e.sp.toNat) (hn : n.sp.toNat = e.sp.toNat - 48)
    (hroom : e.sp.toNat + 144 ≤ 2 ^ 64) (hstop : Stopped reason e n.mem)
    (hexit : n.mem (e.sp.toNat + 136) = m.x 1) (hend : (m.x 1).toNat + 32 ≤ 2 ^ 64) :
    (runOps fillReport n).x 3 = m.x 1 ∧ (runOps fillReport n).x 4 = reason.code ∧
      (runOps fillReport n).x 5 = syndromeOf reason e ∧
      (runOps fillReport n).mem (m.x 1).toNat = reason.code ∧
      (runOps fillReport n).mem ((m.x 1).toNat + 8) = syndromeOf reason e ∧
      (runOps fillReport n).mem ((m.x 1).toNat + 16) = 0 ∧
      (runOps fillReport n).mem ((m.x 1).toNat + 24) = 0 ∧
      ∀ a, a + 8 ≤ (m.x 1).toNat ∨ (m.x 1).toNat + 32 ≤ a →
        (runOps fillReport n).mem a = n.mem a := by
  have h₁₈₄ : add64 (e.sp.toNat - 48) 184 = e.sp.toNat + 136 :=
    (add64_of_lt (by omega)).trans (by omega)
  have h₀ : add64 (e.sp.toNat - 48) 0 = e.sp.toNat - 48 := add64_of_lt (by omega)
  have h₈ : add64 (e.sp.toNat - 48) 8 = e.sp.toNat - 48 + 8 := add64_of_lt (by omega)
  obtain ⟨X, hX⟩ : ∃ X, (m.x 1).toNat = X := ⟨_, rfl⟩
  rw [hX] at hend
  have hx : ∀ off, off ≤ 24 → add64 X off = X + off := fun off h => add64_of_lt (by omega)
  have hrun : runOps fillReport n =
      (((((((n.setX 3 (m.x 1)).setX 4 reason.code).setX 5 (syndromeOf reason e)).store X
        reason.code).store (X + 8) (syndromeOf reason e)).store (X + 16) 0).store (X + 24) 0) := by
    simp [fillReport, Op.run, Machine.addr, hostExit, hn, h₁₈₄, h₀, h₈, hexit, hstop.code,
      hstop.syndrome, hX, hx 0, hx 8, hx 16, hx 24]
  rw [hrun, hX]
  refine ⟨?_, ?_, ?_, ?_, ?_, ?_, ?_, fun a ha => ?_⟩
  · simp
  · simp
  · simp
  · simp
  · simp
  · simp
  · simp
  · have hne : ∀ off, off ≤ 24 → a ≠ X + off := by omega
    have hne₀ : a ≠ X := hne 0 (by norm_num)
    simp [hne₀, hne 8, hne 16, hne 24]

/-- Filling the fault addresses. -/
lemma fillAbort_spec (hend : (n.x 3).toNat + 32 ≤ 2 ^ 64) :
    (runOps fillAbort n).mem ((n.x 3).toNat + 16) = n.sys .farEl2 ∧
      (runOps fillAbort n).mem ((n.x 3).toNat + 24) = n.sys .hpfarEl2 ∧
      ∀ a, a + 8 ≤ (n.x 3).toNat + 16 ∨ (n.x 3).toNat + 32 ≤ a →
        (runOps fillAbort n).mem a = n.mem a := by
  obtain ⟨X, hX⟩ : ∃ X, (n.x 3).toNat = X := ⟨_, rfl⟩
  rw [hX] at hend ⊢
  have h₁₆ : add64 X 16 = X + 16 := add64_of_lt (by omega)
  have h₂₄ : add64 X 24 = X + 24 := add64_of_lt (by omega)
  have hmem : ∀ a, (runOps fillAbort n).mem a =
      if a = X + 24 then n.sys .hpfarEl2 else if a = X + 16 then n.sys .farEl2 else n.mem a := by
    intro a
    simp [fillAbort, Op.run, Machine.addr, hX, h₁₆, h₂₄]
  refine ⟨?_, ?_, fun a ha => ?_⟩
  · simp [hmem]
  · simp [hmem]
  · rw [hmem, if_neg (by omega), if_neg (by omega)]

/-- The branches on the exception class. -/
lemma execBlock_classify (n : Machine) :
    ∃ k : Machine, k.x 3 = n.x 3 ∧ k.sp = n.sp ∧ k.sys = n.sys ∧ k.v = n.v ∧ k.mem = n.mem ∧
      execBlock (exec code 1) (classify ++ abortCode) n =
        .ret (runOps restoreHost
          (if n.x 4 = 0 ∧ isAbort (n.x 5) then runOps fillAbort k else k)) := by
  have hleave : ∀ k, exec code 1 .leave k = .ret (runOps restoreHost k) := by
    intro k
    rw [exec, code, leaveCode, execBlock_ops]
    rfl
  have habort : ∀ k jump, execBlock jump abortCode k =
      .ret (runOps restoreHost (runOps fillAbort k)) := by
    intro k jump
    rw [abortCode, execBlock_ops, leaveCode, execBlock_ops]
    rfl
  have habort' : ∀ k, exec code 1 .abort k =
      .ret (runOps restoreHost (runOps fillAbort k)) := fun k => habort k _
  by_cases h₀ : n.x 4 = 0
  · obtain ⟨c, hc⟩ : ∃ c, (n.x 5 >>> 26) &&& 0x3F = c := ⟨_, rfl⟩
    have hubfx : (n.x 5 >>> 26) &&& (((1 : UInt64) <<< 6) - 1) = c := hc
    have hclass : isAbort (n.x 5) = true ↔ c = 0x20 ∨ c = 0x21 ∨ c = 0x24 ∨ c = 0x25 := by
      simp [isAbort, hc]
    refine ⟨{ n.setX 4 c with z := c = 0x20 ∨ c = 0x21 ∨ c = 0x24 ∨ c = 0x25 }, ?_, rfl, rfl, rfl,
      rfl, ?_⟩
    · simp
    · simp only [h₀, hclass, true_and]
      by_cases h₁ : c = 0x20
      · simp [classify, execBlock, Op.run, ExitReason.code, h₀, hubfx, h₁, habort',
          Machine.setX]
      by_cases h₂ : c = 0x21
      · simp [classify, execBlock, Op.run, ExitReason.code, h₀, hubfx, h₂, habort',
          Machine.setX]
      by_cases h₃ : c = 0x24
      · simp [classify, execBlock, Op.run, ExitReason.code, h₀, hubfx, h₃, habort',
          Machine.setX]
      by_cases h₄ : c = 0x25
      · simp [classify, execBlock, Op.run, ExitReason.code, h₀, hubfx, h₄, habort,
          Machine.setX]
      · simp [classify, execBlock, Op.run, ExitReason.code, h₀, hubfx, h₁, h₂, h₃, h₄, hleave,
          beq_false_of_ne h₄, Machine.setX]
  · refine ⟨{ n with z := n.x 4 == 0 }, rfl, rfl, rfl, rfl, rfl, ?_⟩
    simp [classify, execBlock, Op.run, ExitReason.code, h₀, hleave]

/-- The way back to the caller. -/
lemma restoreHost_spec {base : ℕ} (hn : n.sp.toNat + 48 = base) (hroom : base + 144 ≤ 2 ^ 64)
    (hframe : HostFrame m n.mem base) :
    (∀ i : Fin 12, (runOps restoreHost n).x (i.natAdd 19) = m.x (i.natAdd 19)) ∧
      ∀ r ∈ [SysReg.tpidrEl2, .spEl0, .elrEl2, .spsrEl2, .daif],
        (runOps restoreHost n).sys r = m.sys r := by
  have hbase : (n.sp + 48).toNat = base := (toNat_add_ofNat (n := 48) (by omega)).trans hn
  have hadd : ∀ off, off ≤ 136 → add64 base off = base + off := fun off h => add64_of_lt (by omega)
  constructor
  · intro i
    rw [← hframe.general i]
    fin_cases i <;>
      simp [restoreHost, Op.run, Machine.addr, hostSpElr, hostSpsr, hostTpidrDaif, hbase, hadd 0,
        hadd 8, hadd 16, hadd 24, hadd 32, hadd 40, hadd 48, hadd 56, hadd 64, hadd 72, hadd 80,
        hadd 88]
  · intro r hr
    simp only [List.mem_cons, List.not_mem_nil, or_false] at hr
    obtain rfl | rfl | rfl | rfl | rfl := hr <;>
      simp [restoreHost, Op.run, Machine.addr, hostSpElr, hostSpsr, hostTpidrDaif, hbase, hadd 96,
        hadd 104, hadd 112, hadd 120, hadd 128, hframe.tpidr, hframe.daif, hframe.spEl0, hframe.elr,
        hframe.spsr]

end Exit

/-! ## A whole call -/

/-- What `vcpu_run` may assume of its caller: the two objects and the part of the stack that it uses
are apart, and none of them wraps. -/
structure Call (m : Machine) : Prop where
  stack : 192 ≤ m.sp.toNat
  vcpu_end : (m.x 0).toNat + 448 ≤ 2 ^ 64
  exit_end : (m.x 1).toNat + 32 ≤ 2 ^ 64
  vcpu_stack : (m.x 0).toNat + 448 ≤ m.sp.toNat - 192 ∨ m.sp.toNat ≤ (m.x 0).toNat
  exit_stack : (m.x 1).toNat + 32 ≤ m.sp.toNat - 192 ∨ m.sp.toNat ≤ (m.x 1).toNat
  vcpu_exit : (m.x 0).toNat + 448 ≤ (m.x 1).toNat ∨ (m.x 1).toNat + 32 ≤ (m.x 0).toNat

/-- The guest runs from `n` to an exception at `e`.  It can write neither the registers of EL2 nor,
by stage 2, the stack of the host; everything else is arbitrary.  `ELR_EL2` and `SPSR_EL2` of `e`
hold its program counter and processor state. -/
structure GuestInterval (n e : Machine) : Prop where
  sp : e.sp = n.sp
  tpidr : e.sys .tpidrEl2 = n.sys .tpidrEl2
  frame : ∀ k < 18, e.mem (n.sp.toNat + 8 * k) = n.mem (n.sp.toNat + 8 * k)

/-- A guest that stops at once. -/
lemma GuestInterval.refl (n : Machine) : GuestInterval n n := ⟨rfl, rfl, fun _ _ => rfl⟩

/-- A guest that writes FP and SIMD registers only. -/
lemma GuestInterval.of_v (n : Machine) (v : Fin 32 → BitVec 128) :
    GuestInterval n { n with v := v } := ⟨rfl, rfl, fun _ _ => rfl⟩

/-- What a call leaves behind when its guest has stopped at `e`. -/
structure Returned (m e : Machine) (reason : ExitReason) (r : Machine) : Prop where
  vcpu : VcpuAt r.mem (m.x 0).toNat (guestState e)
  exit : ExitAt r.mem (m.x 1).toNat (reportOf reason e)
  sp : r.sp = m.sp
  sys : ∀ reg ∈ [SysReg.tpidrEl2, .spEl0, .elrEl2, .spsrEl2, .daif], r.sys reg = m.sys reg
  general : ∀ i : Fin 12, r.x (i.natAdd 19) = m.x (i.natAdd 19)
  v : r.v = e.v

/-- A vector ends in the branches on the exception class. -/
lemma runFrom_vector (reason : ExitReason) (e : Machine) :
    runFrom (.vector reason) e = execBlock (exec code 1) (classify ++ abortCode)
      (runOps fillReport (stopped reason e)) := by
  rw [runFrom, exec, code, execBlock_ops, execBlock, exec, code, execBlock_ops,
    execBlock, exec, code, execBlock_ops, runOps_append]
  rfl

/-- Only the code of `SYNC` is zero. -/
lemma code_eq_zero {reason : ExitReason} : reason.code = 0 ↔ reason = .sync := by
  cases reason <;> decide

/-- The stack pointer is moved down and up by the same amount. -/
lemma sp_balance (a : UInt64) :
    a - UInt64.ofNat 144 - UInt64.ofNat 16 - UInt64.ofNat 16 - UInt64.ofNat 16 + UInt64.ofNat 48 +
      UInt64.ofNat 144 = a := by
  simp only [UInt64.sub_eq_add_neg, UInt64.add_assoc]
  exact UInt64.add_zero a

/-- The report is filled, whatever the class of the exception. -/
lemma report_spec {reason : ExitReason} {e n k : Machine} {X : ℕ} (hX : (k.x 3).toNat = X)
    (hend : X + 32 ≤ 2 ^ 64) (hsys : k.sys = e.sys) (hmem : k.mem = n.mem)
    (h₀ : n.mem X = reason.code) (h₈ : n.mem (X + 8) = syndromeOf reason e)
    (h₁₆ : n.mem (X + 16) = 0) (h₂₄ : n.mem (X + 24) = 0) (q : Machine)
    (hq : q = if reason.code = 0 ∧ isAbort (syndromeOf reason e) then runOps fillAbort k else k) :
    ExitAt q.mem X (reportOf reason e) ∧
      (∀ a, a + 8 ≤ X ∨ X + 32 ≤ a → q.mem a = n.mem a) ∧ q.sp = k.sp ∧ q.v = k.v := by
  have hcond : (reason.code = 0 ∧ isAbort (syndromeOf reason e)) ↔
      (reason = .sync ∧ isAbort (e.sys .esrEl2)) := by
    rw [code_eq_zero]
    constructor
    · rintro ⟨rfl, h⟩
      exact ⟨rfl, h⟩
    · rintro ⟨rfl, h⟩
      exact ⟨rfl, h⟩
  by_cases h : reason = .sync ∧ isAbort (e.sys .esrEl2)
  · rw [if_pos (hcond.2 h)] at hq
    obtain ⟨hfar, hhpfar, hother⟩ := fillAbort_spec (n := k) (by rwa [hX])
    rw [hX] at hfar hhpfar hother
    rw [hmem] at hother
    subst hq
    refine ⟨⟨?_, ?_, ?_, ?_⟩, fun a ha => hother a (by omega), runOps_sp (by decide) k,
      runOps_v _ k⟩
    · rw [hother X (by omega), h₀]
      rfl
    · rw [hother (X + 8) (by omega), h₈]
      rfl
    · rw [hfar, hsys]
      exact (if_pos h).symm
    · rw [hhpfar, hsys]
      exact (if_pos h).symm
  · rw [if_neg (fun h' => h (hcond.1 h'))] at hq
    subst hq
    rw [hmem]
    refine ⟨⟨h₀, h₈, ?_, ?_⟩, fun a _ => rfl, rfl, rfl⟩
    · exact h₁₆.trans (if_neg h).symm
    · exact h₂₄.trans (if_neg h).symm

/-- From an exception of the guest back to the caller. -/
lemma returns {m e : Machine} (hcall : Call m) (hinterval : GuestInterval (enter m) e)
    (reason : ExitReason) : ∃ r, runFrom (.vector reason) e = .ret r ∧ Returned m e reason r := by
  obtain ⟨hstack, hvend, hxend, hvs, hxs, hvx⟩ := hcall
  have hlt := m.sp.toNat_lt
  have hesp : e.sp = m.sp - UInt64.ofNat 144 := hinterval.sp.trans (enter_sp m)
  have hF : e.sp.toNat = m.sp.toNat - 144 := by rw [hesp, toNat_sub_ofNat (by omega)]
  have htp : e.sys .tpidrEl2 = m.x 0 := hinterval.tpidr.trans (enter_tpidr m)
  have hframe : HostFrame m e.mem e.sp.toNat := by
    have h := (mem_saveHost (m := m) (by omega)).1
    rw [← enter_mem, ← hF] at h
    exact h.congr (by rw [hinterval.sp]; exact hinterval.frame)
  have hstop := stopped_spec reason (e := e) (by omega) (by rwa [htp]) (by rw [htp]; omega)
  have hssp := toNat_stopped_sp reason (e := e) (by omega)
  have hother : ∀ k < 18, (stopped reason e).mem (e.sp.toNat + 8 * k) =
      e.mem (e.sp.toNat + 8 * k) :=
    fun k hk => hstop.other _ (by omega) (by rw [htp]; omega)
  obtain ⟨h₃, h₄, h₅, hx₀, hx₈, hx₁₆, hx₂₄, hxo⟩ := fillReport_spec reason (m := m) (by omega) hssp
    (by omega) hstop ((hother 17 (by norm_num)).trans hframe.exit) hxend
  obtain ⟨k, hk₃, hksp, hksys, hkv, hkmem, hrun⟩ := execBlock_classify
    (runOps fillReport (stopped reason e))
  rw [h₄, h₅, ← runFrom_vector] at hrun
  obtain ⟨q, hq⟩ : ∃ q, q = if reason.code = 0 ∧ isAbort (syndromeOf reason e) then
    runOps fillAbort k else k := ⟨_, rfl⟩
  rw [← hq] at hrun
  have hks : k.sys = e.sys := by rw [hksys, fillReport_sys, stopped_sys]
  obtain ⟨hexit, hqo, hqsp, hqv⟩ := report_spec (by rw [hk₃, h₃]) hxend hks hkmem hx₀ hx₈ hx₁₆ hx₂₄
    q hq
  have hqsp' : q.sp = (stopped reason e).sp := by rw [hqsp, hksp, fillReport_sp]
  -- the report is apart from the frame and from the `Vcpu`
  have hqframe : HostFrame m q.mem e.sp.toNat := hframe.congr fun i hi => by
    rw [hqo _ (by omega), hxo _ (by omega), hother i hi]
  obtain ⟨hgeneral, hsys⟩ := restoreHost_spec (by rw [hqsp', hssp]; omega) (by omega) hqframe
  have hrmem : (runOps restoreHost q).mem = q.mem := runOps_mem (by decide) q
  refine ⟨runOps restoreHost q, hrun, ?_, ?_, ?_, hsys, hgeneral, ?_⟩
  · intro f
    have hf := offset_le f
    rw [hrmem, hqo _ (by omega), hxo _ (by omega), ← htp]
    exact hstop.vcpu f
  · rwa [hrmem]
  · have hrsp : (runOps restoreHost q).sp = q.sp + UInt64.ofNat 48 + UInt64.ofNat 144 := rfl
    rw [hrsp, hqsp', stopped_sp, hesp, sp_balance]
  · rw [runOps_v, hqv, hkv, runOps_v, stopped, runOps_v, vectored, runOps_v, runOps_v]

/-- One call of `vcpu_run`: it is made on `m`, enters the guest with `n`, is left by the guest at
`e` and returns with `r`. -/
structure Run (m n e r : Machine) (reason : ExitReason) : Prop where
  call : Call m
  entered : runFrom .vcpuRun m = .eret n
  interval : GuestInterval n e
  returned : runFrom (.vector reason) e = .ret r

/-- A call does what `Returned` says. -/
lemma Run.spec {m n e r : Machine} {reason : ExitReason} (h : Run m n e r reason) :
    n = enter m ∧ Returned m e reason r := by
  obtain ⟨hcall, hentered, hinterval, hreturned⟩ := h
  have hn : n = enter m := by
    rw [runFrom_vcpuRun] at hentered
    exact (Outcome.eret.inj hentered).symm
  subst hn
  obtain ⟨r', hr', hspec⟩ := returns hcall hinterval reason
  rw [hreturned] at hr'
  obtain rfl := Outcome.ret.inj hr'
  exact ⟨rfl, hspec⟩

/-- The guest is entered with the state in its `Vcpu`. -/
lemma Call.guestState_enter {m : Machine} {v : Vcpu} (hcall : Call m)
    (hv : VcpuAt m.mem (m.x 0).toNat v) : guestState (enter m) = v := by
  have hstack := hcall.stack
  have hdisj := hcall.vcpu_stack
  exact Switch.guestState_enter (by omega) hcall.vcpu_end (by omega) hv

/-- **The world switch.**  A call of `vcpu_run` enters the guest with the state in its `Vcpu`; from
every exception of the guest it returns with the `Vcpu` holding the state at the exception, the
report describing the exception, and the stack pointer and the control registers of the host as they
were at the call.  Over any number of calls without an edit in between, the guest resumes with the
state that it was stopped with. -/
theorem run_switches :
    (∀ (m : Machine) (v : Vcpu), Call m → VcpuAt m.mem (m.x 0).toNat v →
      ∃ n, runFrom .vcpuRun m = .eret n ∧ guestState n = v ∧
        ∀ (e : Machine) (reason : ExitReason), GuestInterval n e →
          ∃ r, runFrom (.vector reason) e = .ret r ∧
            VcpuAt r.mem (m.x 0).toNat (guestState e) ∧
            ExitAt r.mem (m.x 1).toNat (reportOf reason e) ∧
            r.sp = m.sp ∧
            ∀ reg ∈ [SysReg.tpidrEl2, .spEl0, .elrEl2, .spsrEl2, .daif], r.sys reg = m.sys reg) ∧
    ∀ (m n e r : ℕ → Machine) (reason : ℕ → ExitReason),
      (∀ k, Run (m k) (n k) (e k) (r k) (reason k)) →
      (∀ k, (m (k + 1)).x 0 = (m k).x 0) →
      (∀ k (f : Field), (m (k + 1)).mem (((m k).x 0).toNat + f.offset) =
        (r k).mem (((m k).x 0).toNat + f.offset)) →
      ∀ k, guestState (n (k + 1)) = guestState (e k) := by
  refine ⟨fun m v hcall hv => ?_, fun m n e r reason hrun hobject hedit k => ?_⟩
  · refine ⟨enter m, runFrom_vcpuRun m, hcall.guestState_enter hv, fun e reason hinterval => ?_⟩
    obtain ⟨r, hr, hspec⟩ := returns hcall hinterval reason
    exact ⟨r, hr, hspec.vcpu, hspec.exit, hspec.sp, hspec.sys⟩
  · obtain ⟨hn, -⟩ := (hrun (k + 1)).spec
    obtain ⟨-, hspec⟩ := (hrun k).spec
    rw [hn]
    apply (hrun (k + 1)).call.guestState_enter
    intro f
    rw [hobject, hedit, hspec.vcpu f]

/-- A host with a stack below `0x10000`, a `Vcpu` at `0x20000` and a report at `0x30000`, in a
memory in which every word is its own address. -/
def countingHost : Machine where
  x := fun i => if i = 0 then 0x20000 else if i = 1 then 0x30000 else UInt64.ofNat i.val
  sp := 0x10000
  v := fun _ => 0
  sys := fun reg => UInt64.ofNat (0x100 + reg.ctorIdx)
  z := false
  mem := UInt64.ofNat

/-- The `Vcpu` of `countingHost`. -/
def countingVcpu : Vcpu where
  registers := ⟨fun i => UInt64.ofNat (0x20000 + 8 * i.val), 0x200F8, 0x20100, 0x20108, 0x20110⟩
  system := fun r => UInt64.ofNat (0x20118 + 8 * r.index)

/-- `countingHost` may call `vcpu_run`. -/
lemma call_countingHost : Call countingHost where
  stack := by decide
  vcpu_end := by decide
  exit_end := by decide
  vcpu_stack := by decide
  exit_stack := by decide
  vcpu_exit := by decide

/-- It may do so with any memory. -/
lemma call_of_memory (mem : ℕ → UInt64) : Call { countingHost with mem := mem } :=
  ⟨call_countingHost.stack, call_countingHost.vcpu_end, call_countingHost.exit_end,
    call_countingHost.vcpu_stack, call_countingHost.exit_stack, call_countingHost.vcpu_exit⟩

/-- The `Vcpu` of `countingHost` in memory. -/
lemma vcpuAt_countingHost : VcpuAt countingHost.mem (countingHost.x 0).toNat countingVcpu := by
  intro f
  cases f with
  | system r => cases r <;> rfl
  | _ => rfl

/-- A guest that adds one to each of its registers. -/
def countingGuest (n : Machine) : Machine :=
  { n with
    x := fun i => n.x i + 1
    sys := fun reg => if (fieldOf reg).isSome then n.sys reg + 1 else n.sys reg }

/-- It leaves the registers of EL2 and the memory alone. -/
lemma interval_countingGuest (n : Machine) : GuestInterval n (countingGuest n) :=
  ⟨rfl, rfl, fun _ _ => rfl⟩

/-- The next call, on the memory that the last one has left. -/
def callAgain : Outcome → Machine
  | .ret r => { countingHost with mem := r.mem }
  | _ => countingHost

/-- The calls that `countingHost` makes, each after the return of the one before. -/
def countingCall : ℕ → Machine
  | 0 => countingHost
  | k + 1 => callAgain (runFrom (.vector .irq) (countingGuest (enter (countingCall k))))

/-- All calls are made with the same registers. -/
lemma countingCall_eq (k : ℕ) : ∃ mem, countingCall k = { countingHost with mem := mem } := by
  cases k with
  | zero => exact ⟨UInt64.ofNat, rfl⟩
  | succ k =>
    rw [countingCall]
    cases runFrom (.vector .irq) (countingGuest (enter (countingCall k))) with
    | ret r => exact ⟨r.mem, rfl⟩
    | _ => exact ⟨UInt64.ofNat, rfl⟩

/-- The guest of `countingHost` counts on over any number of calls. -/
theorem run_switches_countingHost :
    (∃ n r, runFrom .vcpuRun countingHost = .eret n ∧ guestState n = countingVcpu ∧
      runFrom (.vector .irq) (countingGuest n) = .ret r ∧
      VcpuAt r.mem 0x20000 (guestState (countingGuest n)) ∧ r.sp = 0x10000 ∧
      r.sys .spEl0 = countingHost.sys .spEl0) ∧
    ∃ (m n e r : ℕ → Machine) (reason : ℕ → ExitReason), m 0 = countingHost ∧
      (∀ k, e k = countingGuest (n k) ∧ Run (m k) (n k) (e k) (r k) (reason k)) ∧
      (∀ k, guestState (n (k + 1)) = guestState (e k)) ∧
      ∀ k i, (n k).x i = UInt64.ofNat (0x20000 + 8 * i.val + k) := by
  obtain ⟨hfirst, hruns⟩ := run_switches
  have hcall (k : ℕ) : Call (countingCall k) := by
    obtain ⟨mem, hm⟩ := countingCall_eq k
    rw [hm]
    exact call_of_memory mem
  have hobject (k : ℕ) : (countingCall k).x 0 = 0x20000 := by
    obtain ⟨mem, hm⟩ := countingCall_eq k
    rw [hm]
    rfl
  choose r hr _ using fun k => returns (hcall k) (interval_countingGuest _) .irq
  have hrun (k : ℕ) : Run (countingCall k) (enter (countingCall k))
      (countingGuest (enter (countingCall k))) (r k) .irq :=
    ⟨hcall k, runFrom_vcpuRun _, interval_countingGuest _, hr k⟩
  have hnext (k : ℕ) : (countingCall (k + 1)).mem = (r k).mem := by
    rw [countingCall, hr k, callAgain]
  have hresume := hruns _ _ _ r (fun _ => .irq) hrun
    (fun k => (hobject (k + 1)).trans (hobject k).symm) fun k f => by rw [hnext]
  obtain ⟨n, hn, hguest, hreturn⟩ := hfirst countingHost countingVcpu call_countingHost
    vcpuAt_countingHost
  obtain ⟨r₀, hr₀, hvcpu, -, hsp, hsys⟩ := hreturn _ .irq (interval_countingGuest n)
  refine ⟨⟨n, r₀, hn, hguest, hr₀, hvcpu, hsp, hsys _ (by decide)⟩, _, _, _, r, fun _ => .irq, rfl,
    fun k => ⟨rfl, hrun k⟩, hresume, fun k i => ?_⟩
  induction k with
  | zero =>
    have hstate := call_countingHost.guestState_enter vcpuAt_countingHost
    exact congrArg (fun v : Vcpu => v.registers.x i) hstate
  | succ k ih =>
    have hx := congrArg (fun v : Vcpu => v.registers.x i) (hresume k)
    have hadd : UInt64.ofNat (0x20000 + 8 * i.val + (k + 1)) =
        UInt64.ofNat (0x20000 + 8 * i.val + k) + 1 := UInt64.ofNat_add _ 1
    rw [hadd, ← ih]
    exact hx

/-! ## The calling convention -/

/-- The registers that the procedure call standard makes a callee preserve. -/
structure Preserved (m r : Machine) : Prop where
  general : ∀ i : Fin 31, 19 ≤ i.val → r.x i = m.x i
  sp : r.sp = m.sp
  /-- The low halves of `v8` to `v15`. -/
  simd : ∀ i : Fin 32, 8 ≤ i.val → i.val ≤ 15 → (r.v i).setWidth 64 = (m.v i).setWidth 64

/-- A call of `vcpu_run` preserves what its caller relies on if and only if the guest has left the
low halves of `v8` to `v15` alone: they are not part of the frame. -/
theorem preserved_iff {m e : Machine} (hcall : Call m) (hinterval : GuestInterval (enter m) e)
    (reason : ExitReason) :
    runFrom .vcpuRun m = .eret (enter m) ∧
      ∃ r, runFrom (.vector reason) e = .ret r ∧
        (∀ i : Fin 31, 19 ≤ i.val → r.x i = m.x i) ∧ r.sp = m.sp ∧
        (Preserved m r ↔ ∀ i : Fin 32, 8 ≤ i.val → i.val ≤ 15 →
          (e.v i).setWidth 64 = (m.v i).setWidth 64) := by
  obtain ⟨r, hr, hspec⟩ := returns hcall hinterval reason
  have hgeneral : ∀ i : Fin 31, 19 ≤ i.val → r.x i = m.x i := by
    intro i hi
    have h := hspec.general ⟨i.val - 19, by omega⟩
    have hi' : Fin.natAdd 19 (⟨i.val - 19, by omega⟩ : Fin 12) = i :=
      Fin.ext (Nat.add_sub_cancel' hi)
    rwa [hi'] at h
  refine ⟨runFrom_vcpuRun m, r, hr, hgeneral, hspec.sp, fun h => ?_, fun h => ?_⟩
  · rw [← hspec.v]
    exact h.simd
  · rw [← hspec.v] at h
    exact ⟨hgeneral, hspec.sp, h⟩

/-- `countingHost` gets everything back from a guest that stops at once. -/
theorem preserved_iff_countingHost :
    ∃ r, runFrom (.vector .irq) (enter countingHost) = .ret r ∧ Preserved countingHost r := by
  obtain ⟨-, r, hr, -, -, hiff⟩ := preserved_iff call_countingHost
    (GuestInterval.refl (enter countingHost)) .irq
  exact ⟨r, hr, hiff.2 fun i _ _ => by rw [enter, runOps_v]⟩

/-- The guest of `countingHost` after it has written `v8`. -/
def simdGuest : Machine := { enter countingHost with v := fun i => if i = 8 then 1 else 0 }

/-- A guest that writes `v8` changes `v8` of its host. -/
theorem not_preserved_simdGuest :
    Call countingHost ∧ runFrom .vcpuRun countingHost = .eret (enter countingHost) ∧
      GuestInterval (enter countingHost) simdGuest ∧
      ∃ r, runFrom (.vector .irq) simdGuest = .ret r ∧ (countingHost.v 8).setWidth 64 = 0#64 ∧
        (r.v 8).setWidth 64 = 1#64 ∧ ¬ Preserved countingHost r := by
  have hinterval : GuestInterval (enter countingHost) simdGuest := .of_v _ _
  obtain ⟨r, hr, hspec⟩ := returns call_countingHost hinterval .irq
  have hv : (r.v 8).setWidth 64 = 1#64 := by
    rw [hspec.v, simdGuest]
    rfl
  refine ⟨call_countingHost, runFrom_vcpuRun _, hinterval, r, hr, rfl, hv, fun h => ?_⟩
  have h₈ := h.simd 8 (by decide) (by decide)
  rw [hv] at h₈
  exact absurd h₈ (by decide)

end Switch

end HyperBerry
