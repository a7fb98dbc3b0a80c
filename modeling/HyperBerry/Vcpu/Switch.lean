import HyperBerry.Vcpu.Assembly

/-!
# Entering a guest

The state of a guest in registers (`guestState`) and in memory (`VcpuAt`), and what `vcpu_run` does
with it: at its exception return the registers hold the state in the `Vcpu`, and the stack holds a
`HostFrame` with what the host needs back.
-/

namespace HyperBerry

namespace Switch

open Aarch64 Vcpu

/-! ## Guest states in registers and in memory -/

/-- The state of the guest in the registers of a machine. -/
def guestState (m : Machine) : Vcpu where
  registers :=
    { x := m.x, pc := m.sys .elrEl2, pstate := m.sys .spsrEl2, spEl0 := m.sys .spEl0,
      spEl1 := m.sys .spEl1 }
  system := fun r => m.sys r.reg

/-- The word of a `Vcpu` that a system register is kept in. -/
def fieldOf : SysReg → Option Field
  | .sctlrEl1 => some (.system .sctlr)
  | .ttbr0El1 => some (.system .ttbr0)
  | .ttbr1El1 => some (.system .ttbr1)
  | .tcrEl1 => some (.system .tcr)
  | .mairEl1 => some (.system .mair)
  | .amairEl1 => some (.system .amair)
  | .vbarEl1 => some (.system .vbar)
  | .elrEl1 => some (.system .elr)
  | .spsrEl1 => some (.system .spsr)
  | .esrEl1 => some (.system .esr)
  | .farEl1 => some (.system .far)
  | .afsr0El1 => some (.system .afsr0)
  | .afsr1El1 => some (.system .afsr1)
  | .contextidrEl1 => some (.system .contextidr)
  | .tpidrEl1 => some (.system .tpidr)
  | .tpidrEl0 => some (.system .tpidrEl0)
  | .tpidrroEl0 => some (.system .tpidrroEl0)
  | .cntkctlEl1 => some (.system .cntkctl)
  | .cpacrEl1 => some (.system .cpacr)
  | .parEl1 => some (.system .par)
  | .csselrEl1 => some (.system .csselr)
  | .spEl0 => some .spEl0
  | .spEl1 => some .spEl1
  | .elrEl2 => some .pc
  | .spsrEl2 => some .pstate
  | _ => none

/-- A word of the guest's state is in the register that it is kept for. -/
lemma guestState_get (m : Machine) {r : SysReg} {f : Field} (h : fieldOf r = some f) :
    (guestState m).get f = m.sys r := by
  cases r <;> cases h <;> rfl

/-- Every word of a `Vcpu` is kept for a register. -/
lemma field_cases (f : Field) : (∃ i, f = .x i) ∨ ∃ r, fieldOf r = some f := by
  cases f with
  | x i => exact .inl ⟨i, rfl⟩
  | pc => exact .inr ⟨.elrEl2, rfl⟩
  | pstate => exact .inr ⟨.spsrEl2, rfl⟩
  | spEl0 => exact .inr ⟨.spEl0, rfl⟩
  | spEl1 => exact .inr ⟨.spEl1, rfl⟩
  | system r => exact .inr ⟨r.reg, by cases r <;> rfl⟩

/-- Two `Vcpu`s with the same words are equal. -/
lemma eq_of_get {v w : Vcpu} (h : ∀ f, v.get f = w.get f) : v = w := by
  have hregisters : v.registers = w.registers :=
    GuestRegisters.ext (funext fun i => h (.x i)) (h .pc) (h .pstate) (h .spEl0) (h .spEl1)
  exact Vcpu.ext hregisters (funext fun r => h (.system r))

/-- The words of a `Vcpu` end at byte 448. -/
lemma offset_le (f : Field) : f.offset + 8 ≤ 448 := by
  cases f with
  | x i =>
    have := i.isLt
    simp only [Field.offset]
    omega
  | system r => cases r <;> decide
  | _ => decide

/-- Members of `SystemRegisters` have places of their own. -/
lemma index_injective {r s : SystemRegister} (h : r.index = s.index) : r = s := by
  cases r <;> cases s <;> first | rfl | cases h

/-- The words of a `Vcpu` have places of their own. -/
lemma offset_injective {f g : Field} (h : f.offset = g.offset) : f = g := by
  cases f <;> cases g <;> simp only [Field.offset] at h <;>
    first
      | rfl
      | omega
      | exact congrArg _ (index_injective (by omega))
      | exact congrArg _ (Fin.ext (by omega))

/-- The object at `base` holds a `Vcpu`. -/
def VcpuAt (mem : ℕ → UInt64) (base : ℕ) (v : Vcpu) : Prop :=
  ∀ f : Field, mem (base + f.offset) = v.get f

/-- The object at `base` holds a report. -/
structure ExitAt (mem : ℕ → UInt64) (base : ℕ) (report : VcpuExit) : Prop where
  reason : mem base = report.reason.code
  syndrome : mem (base + 8) = report.syndrome
  far : mem (base + 16) = report.far
  hpfar : mem (base + 24) = report.hpfar

/-- Memory after some words of `v` have been written to the object at `base`. -/
def saveFields (base : ℕ) (v : Vcpu) (fs : List Field) (mem : ℕ → UInt64) : ℕ → UInt64 :=
  fs.foldl (fun mem f => Function.update mem (base + f.offset) (v.get f)) mem

lemma saveFields_append (base : ℕ) (v : Vcpu) (fs gs : List Field) (mem : ℕ → UInt64) :
    saveFields base v (fs ++ gs) mem = saveFields base v gs (saveFields base v fs mem) :=
  List.foldl_append

/-- Words outside of the object are left alone. -/
lemma saveFields_outside {base a : ℕ} (v : Vcpu) (fs : List Field) (mem : ℕ → UInt64)
    (h : a + 8 ≤ base ∨ base + 448 ≤ a) : saveFields base v fs mem a = mem a := by
  induction fs generalizing mem with
  | nil => rfl
  | cons f fs ih =>
    have hf := offset_le f
    rw [saveFields, List.foldl_cons, ← saveFields, ih, Function.update_of_ne (by omega)]

/-- What the words of the object hold afterwards. -/
lemma saveFields_field (base : ℕ) (v : Vcpu) (fs : List Field) (mem : ℕ → UInt64) (f : Field) :
    saveFields base v fs mem (base + f.offset) =
      if f ∈ fs then v.get f else mem (base + f.offset) := by
  induction fs generalizing mem with
  | nil => rfl
  | cons g fs ih =>
    rw [saveFields, List.foldl_cons, ← saveFields, ih]
    by_cases hf : f ∈ fs
    · simp [hf]
    · by_cases hg : f = g
      · simp [hg]
      · have hne : base + f.offset ≠ base + g.offset :=
          fun h => hg (offset_injective (Nat.add_left_cancel h))
        simp [hf, hg, Function.update_of_ne hne]

/-- Writing all of its words makes the object hold the `Vcpu`. -/
lemma vcpuAt_saveFields (base : ℕ) (v : Vcpu) {fs : List Field} (mem : ℕ → UInt64)
    (h : ∀ f, f ∈ fs) : VcpuAt (saveFields base v fs mem) base v := fun f => by
  rw [saveFields_field, if_pos (h f)]

/-! ## Loading the guest -/

section Load

variable {m : Machine} {v : Vcpu}

/-- The address of a word of the object at `x<b>`. -/
lemma addr_field {b : Fin 31} (hend : (m.x b).toNat + 448 ≤ 2 ^ 64) (f : Field) :
    m.addr (.x b) f.offset = (m.x b).toNat + f.offset := by
  have := offset_le f
  exact Machine.addr_of_lt (by rw [Machine.base_x]; omega)

/-- The value of a system register in a `Vcpu`. -/
def sysValue (v : Vcpu) (r : SysReg) : UInt64 := ((fieldOf r).map v.get).getD 0

/-- One use of `restore_register`. -/
lemma sys_restoreRegister (hend : (m.x 0).toNat + 448 ≤ 2 ^ 64)
    (hv : VcpuAt m.mem (m.x 0).toNat v) {p : SysReg × Field} (hp : fieldOf p.1 = some p.2)
    (r : SysReg) :
    (runOps (restoreRegister p) m).sys r = if r = p.1 then sysValue v r else m.sys r := by
  have hload : m.mem (m.addr (.x 0) p.2.offset) = v.get p.2 := by
    rw [addr_field hend, hv]
  by_cases h : r = p.1
  · subst h
    simp [restoreRegister, Op.run, hload, sysValue, hp]
  · simp [restoreRegister, Op.run, h]

/-- The uses of `restore_register` for a table of registers. -/
lemma sys_restoreRegisters (table : List (SysReg × Field))
    (htable : ∀ p ∈ table, fieldOf p.1 = some p.2) (hend : (m.x 0).toNat + 448 ≤ 2 ^ 64)
    (hv : VcpuAt m.mem (m.x 0).toNat v) (r : SysReg) :
    (runOps (table.flatMap restoreRegister) m).sys r =
      if r ∈ table.map Prod.fst then sysValue v r else m.sys r := by
  induction table generalizing m with
  | nil => simp
  | cons p table ih =>
    have hx : (runOps (restoreRegister p) m).x 0 = m.x 0 :=
      runOps_x (by simp [restoreRegister, Op.dests]) m
    have hmem : (runOps (restoreRegister p) m).mem = m.mem :=
      runOps_mem (by simp [restoreRegister, Op.stores]) m
    rw [List.flatMap_cons, runOps_append,
      ih (fun q hq => htable q (List.mem_cons_of_mem _ hq)) (by rwa [hx]) (by rwa [hx, hmem]),
      sys_restoreRegister hend hv (htable p List.mem_cons_self)]
    by_cases h₁ : r ∈ table.map Prod.fst
    · simp only [h₁, if_true, List.map_cons, List.mem_cons, or_true]
    · simp only [h₁, if_false, List.map_cons, List.mem_cons, or_false]

/-- A list of `ldp` instructions. -/
lemma x_loadPairs (table : List (Fin 31 × Fin 31))
    (htable : ∀ p ∈ table, p.2.val = p.1.val + 1 ∧ p.1 ≠ 0 ∧ p.2 ≠ 0)
    (hend : (m.x 0).toNat + 448 ≤ 2 ^ 64) (hv : VcpuAt m.mem (m.x 0).toNat v) (i : Fin 31) :
    (runOps (table.map loadPair) m).x i =
      if i ∈ table.flatMap (fun p => [p.1, p.2]) then v.registers.x i else m.x i := by
  induction table generalizing m with
  | nil => simp
  | cons p table ih =>
    obtain ⟨hsucc, h₁, h₂⟩ := htable p List.mem_cons_self
    have hnext : (Field.x p.1).offset + 8 = (Field.x p.2).offset := by
      simp only [Field.offset, hsucc, Nat.mul_add]
    have hrun : (loadPair p).run m =
        (m.setX p.1 (v.registers.x p.1)).setX p.2 (v.registers.x p.2) := by
      simp only [loadPair, Op.run, hnext, addr_field hend]
      rw [hv, hv]
      rfl
    have hx : ((loadPair p).run m).x 0 = m.x 0 := by
      rw [hrun]
      simp [h₁.symm, h₂.symm]
    have hmem : ((loadPair p).run m).mem = m.mem := rfl
    rw [List.map_cons, runOps_cons,
      ih (fun q hq => htable q (List.mem_cons_of_mem _ hq)) (by rwa [hx]) (by rwa [hx, hmem]),
      hrun]
    by_cases hi : i ∈ table.flatMap fun p => [p.1, p.2]
    · simp [hi]
    · simp only [hi, if_false, Machine.setX_x, List.flatMap_cons, List.mem_append, List.mem_cons,
        List.not_mem_nil, or_false]
      by_cases hi₂ : i = p.2
      · simp [hi₂]
      · by_cases hi₁ : i = p.1 <;> simp_all

/-- The registers that `restoreSystem` loads. -/
lemma sys_restoreSystem (hend : (m.x 0).toNat + 448 ≤ 2 ^ 64)
    (hv : VcpuAt m.mem (m.x 0).toNat v) (r : SysReg) :
    (runOps restoreSystem m).sys r = if (fieldOf r).isSome then sysValue v r else m.sys r := by
  -- a barrier changes nothing, and the last four instructions are two uses of the macro
  have hisb : runOps restoreSystem m =
      runOps (List.flatMap restoreRegister (restoredFirst ++ [(.sctlrEl1, .system .sctlr),
        (.elrEl2, .pc), (.spsrEl2, .pstate)])) m := by
    simp only [restoreSystem, List.flatMap_append, runOps_append, runOps_cons, runOps_nil, Op.run,
      restoreRegister, List.flatMap_cons, List.flatMap_nil, List.cons_append, List.nil_append]
  rw [hisb, sys_restoreRegisters _ (by decide) hend hv]
  cases r <;> rfl

/-- The registers that `restoreGeneral` loads. -/
lemma x_restoreGeneral (hend : (m.x 0).toNat + 448 ≤ 2 ^ 64)
    (hv : VcpuAt m.mem (m.x 0).toNat v) (i : Fin 31) :
    (runOps restoreGeneral m).x i = v.registers.x i := by
  have hpairs := x_loadPairs ((2, 3) :: pairs) (by decide +kernel) hend hv
  have hmem : (runOps (((2, 3) :: pairs).map loadPair) m).mem = m.mem :=
    runOps_mem (by decide) m
  have hx : (runOps (((2, 3) :: pairs).map loadPair) m).x 0 = m.x 0 := by
    rw [hpairs, if_neg (by decide)]
  rw [restoreGeneral, runOps_append]
  generalize runOps (((2, 3) :: pairs).map loadPair) m = k at hpairs hmem hx
  rw [← hx] at hend
  rw [← hx, ← hmem] at hv
  have hload : ∀ j : Fin 31, k.mem (k.addr (.x 0) (Field.x j).offset) = v.registers.x j :=
    fun j => by rw [addr_field hend, hv]; rfl
  have hload₁ : k.mem (k.addr (.x 0) ((Field.x 0).offset + 8)) = v.registers.x 1 := hload 1
  have haddr : ∀ w off, (k.setX 30 w).addr (.x 0) off = k.addr (.x 0) off := fun _ _ => rfl
  simp only [runOps_cons, runOps_nil, Op.run, Machine.setX_x, Machine.setX_mem, haddr, hload,
    hload₁]
  by_cases h₁ : i = 1
  · rw [if_pos h₁, h₁]
  by_cases h₀ : i = 0
  · rw [if_neg h₁, if_pos h₀, h₀]
  by_cases h₃₀ : i = 30
  · rw [if_neg h₁, if_neg h₀, if_pos h₃₀, h₃₀]
  have hi : ∀ i : Fin 31, i ≠ 1 → i ≠ 0 → i ≠ 30 →
      i ∈ ((2, 3) :: pairs).flatMap fun p => [p.1, p.2] := by decide +kernel
  rw [if_neg h₁, if_neg h₀, if_neg h₃₀, hpairs, if_pos (hi i h₁ h₀ h₃₀)]

/-- The state of the guest is loaded. -/
lemma guestState_restore (hend : (m.x 0).toNat + 448 ≤ 2 ^ 64)
    (hv : VcpuAt m.mem (m.x 0).toNat v) :
    guestState (runOps (restoreSystem ++ restoreGeneral) m) = v := by
  have hx : (runOps restoreSystem m).x 0 = m.x 0 := runOps_x (by decide) m
  have hmem : (runOps restoreSystem m).mem = m.mem := runOps_mem (by decide) m
  rw [runOps_append]
  apply eq_of_get
  intro f
  obtain ⟨i, rfl⟩ | ⟨r, hr⟩ := field_cases f
  · exact x_restoreGeneral (by rwa [hx]) (by rwa [hx, hmem]) i
  · have hkeep : ∀ o ∈ restoreGeneral, r ∉ o.sysDests := by
      have hnil : ∀ o ∈ restoreGeneral, o.sysDests = [] := by decide
      intro o ho
      simp [hnil o ho]
    rw [guestState_get _ hr, runOps_sys hkeep, sys_restoreSystem hend hv,
      if_pos (by rw [hr]; rfl), sysValue, hr]
    rfl

end Load

/-! ## The frame of the host -/

/-- The frame at `base` holds what `vcpu_run` was called with on `m`. -/
structure HostFrame (m : Machine) (mem : ℕ → UInt64) (base : ℕ) : Prop where
  /-- `x19` to `x30`. -/
  general : ∀ i : Fin 12, mem (base + 8 * i.val) = m.x (i.natAdd 19)
  tpidr : mem (base + 96) = m.sys .tpidrEl2
  daif : mem (base + 104) = m.sys .daif
  spEl0 : mem (base + 112) = m.sys .spEl0
  elr : mem (base + 120) = m.sys .elrEl2
  spsr : mem (base + 128) = m.sys .spsrEl2
  exit : mem (base + 136) = m.x 1

/-- A frame depends on its own words only. -/
lemma HostFrame.congr {m : Machine} {mem mem' : ℕ → UInt64} {base : ℕ}
    (h : HostFrame m mem base) (heq : ∀ k < 18, mem' (base + 8 * k) = mem (base + 8 * k)) :
    HostFrame m mem' base where
  general i := by rw [heq _ (by omega), h.general]
  tpidr := (heq 12 (by norm_num)).trans h.tpidr
  daif := (heq 13 (by norm_num)).trans h.daif
  spEl0 := (heq 14 (by norm_num)).trans h.spEl0
  elr := (heq 15 (by norm_num)).trans h.elr
  spsr := (heq 16 (by norm_num)).trans h.spsr
  exit := (heq 17 (by norm_num)).trans h.exit

section Host

variable {m : Machine}

/-- The memory that `saveHost` leaves. -/
lemma mem_saveHost (hsp : 144 ≤ m.sp.toNat) :
    HostFrame m (runOps saveHost m).mem (m.sp.toNat - 144) ∧
      ∀ a, a + 8 ≤ m.sp.toNat - 144 ∨ m.sp.toNat ≤ a →
        (runOps saveHost m).mem a = m.mem a := by
  have hlt := m.sp.toNat_lt
  obtain ⟨F, hF⟩ : ∃ F, m.sp.toNat - 144 = F := ⟨_, rfl⟩
  have hbase : (m.sp - 144).toNat = F := (toNat_sub_ofNat hsp).trans hF
  have hadd : ∀ off, off ≤ 136 → add64 F off = F + off := fun off h => add64_of_lt (by omega)
  rw [hF]
  simp only [saveHost, hostFrameSize, hostExit, hostTpidrDaif, hostSpElr, hostSpsr, runOps_cons,
    runOps_nil, Op.run, Machine.addr, Machine.base_sp, Machine.read_x, Machine.setX_sys,
    Machine.setX_sp, Machine.setX_x, Machine.setSys_sp, Machine.setSys_x, Machine.setSys_sys,
    Machine.setSp_sp, Machine.setSp_x, Machine.setSp_sys, Machine.store_sp, Machine.store_x,
    Machine.store_sys, Machine.setSys_mem, UInt64.reduceOfNat, Fin.isValue, Fin.reduceEq,
    zero_ne_one, reduceCtorEq, ↓reduceIte, Nat.reduceAdd, Nat.reduceLeDiff, Std.le_refl, hbase,
    hadd 0, hadd 8, hadd 16, hadd 24, hadd 32, hadd 40, hadd 48, hadd 56, hadd 64, hadd 72, hadd 80,
    hadd 88, hadd 96, hadd 104, hadd 112, hadd 120, hadd 128, hadd 136]
  constructor
  · constructor
    · intro i
      fin_cases i <;> simp
    all_goals simp
  · intro a ha
    have hne : ∀ off, off ≤ 136 → a ≠ F + off := by omega
    simp only [Machine.store_mem, Machine.setX_mem, Machine.setSys_mem, Machine.setSp_mem,
      Nat.reduceLeDiff, Std.le_refl, ↓reduceIte, hne 0, hne 8, hne 16, hne 24, hne 32, hne 40,
      hne 48, hne 56, hne 64, hne 72, hne 80, hne 88, hne 96, hne 104, hne 112, hne 120, hne 128,
      hne 136]

/-- Leave `vcpu_run` for the guest. -/
def enter (m : Machine) : Machine := runOps (saveHost ++ (restoreSystem ++ restoreGeneral)) m

/-- `vcpu_run` reaches its exception return. -/
lemma runFrom_vcpuRun (m : Machine) : runFrom .vcpuRun m = .eret (enter m) := by
  rw [runFrom, exec, code, List.append_assoc, execBlock_ops]
  rfl

/-- The stack pointer at the exception return. -/
lemma enter_sp (m : Machine) : (enter m).sp = m.sp - UInt64.ofNat 144 := by
  rw [enter, runOps_append, runOps_sp (by decide)]
  rfl

/-- `TPIDR_EL2` holds the address of the `Vcpu` while the guest runs. -/
lemma enter_tpidr (m : Machine) : (enter m).sys .tpidrEl2 = m.x 0 := by
  rw [enter, runOps_append, runOps_sys (by decide +kernel)]
  rfl

/-- Loading the guest writes no memory. -/
lemma enter_mem (m : Machine) : (enter m).mem = (runOps saveHost m).mem := by
  rw [enter, runOps_append, runOps_mem (by decide)]

/-- The guest is entered with the state in its `Vcpu`. -/
lemma guestState_enter {v : Vcpu} (hsp : 144 ≤ m.sp.toNat) (hend : (m.x 0).toNat + 448 ≤ 2 ^ 64)
    (hdisj : (m.x 0).toNat + 448 ≤ m.sp.toNat - 144 ∨ m.sp.toNat ≤ (m.x 0).toNat)
    (hv : VcpuAt m.mem (m.x 0).toNat v) : guestState (enter m) = v := by
  have hx : (runOps saveHost m).x 0 = m.x 0 := runOps_x (by decide) m
  rw [enter, runOps_append]
  apply guestState_restore
  · rwa [hx]
  · intro f
    have hf := offset_le f
    rw [hx, (mem_saveHost hsp).2 _ (by omega), hv]

end Host

end Switch

end HyperBerry
