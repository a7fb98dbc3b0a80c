import HyperBerry.Lib.Word

/-!
# A small AArch64 machine

The registers that hypervisor code at EL2 moves around, the instructions it does that with, and
their effect.  Memory is a map from addresses to 64-bit words: all accesses are of words, and two
accesses touch each other only if their addresses are equal, which is the case for code that keeps
every object it accesses in words at multiples of eight bytes from its start.

Code is a table from labels to instruction sequences.  `exec` runs it up to an exception return or a
return.  Straight-line code is a list of `Op`s: `execBlock_ops` runs it in one step, and the lemmas
on `runOps` say what it leaves alone.
-/

namespace HyperBerry

namespace Aarch64

/-- The system registers. -/
inductive SysReg
  | sctlrEl1
  | ttbr0El1
  | ttbr1El1
  | tcrEl1
  | mairEl1
  | amairEl1
  | vbarEl1
  | elrEl1
  | spsrEl1
  | esrEl1
  | farEl1
  | afsr0El1
  | afsr1El1
  | contextidrEl1
  | tpidrEl1
  | tpidrEl0
  | tpidrroEl0
  | cntkctlEl1
  | cpacrEl1
  | parEl1
  | csselrEl1
  | spEl0
  | spEl1
  | elrEl2
  | spsrEl2
  | tpidrEl2
  | esrEl2
  | farEl2
  | hpfarEl2
  | daif
deriving DecidableEq

/-- The state of a processor at EL2 with its own stack pointer, and the memory. -/
structure Machine where
  /-- The general-purpose registers. -/
  x : Fin 31 → UInt64
  /-- The stack pointer of EL2. -/
  sp : UInt64
  /-- The FP and SIMD registers. -/
  v : Fin 32 → BitVec 128
  /-- The system registers. -/
  sys : SysReg → UInt64
  /-- The zero flag. -/
  z : Bool
  /-- The words in memory. -/
  mem : ℕ → UInt64

/-- A source register. -/
inductive Reg
  | x (i : Fin 31)
  | zr

/-- The base of an address. -/
inductive Base
  | x (i : Fin 31)
  | sp

/-- Straight-line instructions. -/
inductive Op
  /-- `mrs d, r` -/
  | mrs (d : Fin 31) (r : SysReg)
  /-- `msr r, s` -/
  | msr (r : SysReg) (s : Fin 31)
  /-- `msr daifset, #imm` -/
  | daifSet (imm : UInt64)
  /-- `sub sp, sp, #n` -/
  | subSp (n : ℕ)
  /-- `add sp, sp, #n` -/
  | addSp (n : ℕ)
  /-- `ldr d, [b, #off]` -/
  | ldr (d : Fin 31) (b : Base) (off : ℕ)
  /-- `ldp d, e, [b, #off]` -/
  | ldp (d e : Fin 31) (b : Base) (off : ℕ)
  /-- `str s, [b, #off]` -/
  | str (s : Reg) (b : Base) (off : ℕ)
  /-- `stp s, t, [b, #off]` -/
  | stp (s t : Reg) (b : Base) (off : ℕ)
  /-- `stp s, t, [sp, #-n]!` -/
  | push (s t : Reg) (n : ℕ)
  /-- `mov d, #imm` -/
  | movImm (d : Fin 31) (imm : UInt64)
  /-- `mov d, s` -/
  | mov (d : Fin 31) (s : Reg)
  /-- `ubfx d, s, #lsb, #width` -/
  | ubfx (d s : Fin 31) (lsb width : UInt64)
  /-- `cmp s, #imm` -/
  | cmp (s : Fin 31) (imm : UInt64)
  /-- `isb` -/
  | isb

namespace Machine

/-- The value of a source register. -/
def read (m : Machine) : Reg → UInt64
  | .x i => m.x i
  | .zr => 0

/-- The value of a base. -/
def base (m : Machine) : Base → UInt64
  | .x i => m.x i
  | .sp => m.sp

/-- An address. -/
def addr (m : Machine) (b : Base) (off : ℕ) : ℕ := add64 (m.base b).toNat off

/-- Write a general-purpose register. -/
def setX (m : Machine) (d : Fin 31) (value : UInt64) : Machine :=
  { m with x := Function.update m.x d value }

/-- Write a system register. -/
def setSys (m : Machine) (r : SysReg) (value : UInt64) : Machine :=
  { m with sys := Function.update m.sys r value }

/-- Write the stack pointer. -/
def setSp (m : Machine) (value : UInt64) : Machine := { m with sp := value }

/-- Write a word to memory. -/
def store (m : Machine) (a : ℕ) (value : UInt64) : Machine :=
  { m with mem := Function.update m.mem a value }

@[simp] lemma read_x (m : Machine) (i : Fin 31) : m.read (.x i) = m.x i := rfl

@[simp] lemma read_zr (m : Machine) : m.read .zr = 0 := rfl

@[simp] lemma base_x (m : Machine) (i : Fin 31) : m.base (.x i) = m.x i := rfl

@[simp] lemma base_sp (m : Machine) : m.base .sp = m.sp := rfl

section simp

variable (m : Machine) (d : Fin 31) (r : SysReg) (a : ℕ) (value : UInt64)

@[simp] lemma setX_x (i : Fin 31) : (m.setX d value).x i = if i = d then value else m.x i :=
  Function.update_apply m.x d value i

@[simp] lemma setX_sp : (m.setX d value).sp = m.sp := rfl

@[simp] lemma setX_v : (m.setX d value).v = m.v := rfl

@[simp] lemma setX_sys : (m.setX d value).sys = m.sys := rfl

@[simp] lemma setX_mem : (m.setX d value).mem = m.mem := rfl

@[simp] lemma setSys_x : (m.setSys r value).x = m.x := rfl

@[simp] lemma setSys_sp : (m.setSys r value).sp = m.sp := rfl

@[simp] lemma setSys_v : (m.setSys r value).v = m.v := rfl

@[simp] lemma setSys_sys (i : SysReg) :
    (m.setSys r value).sys i = if i = r then value else m.sys i :=
  Function.update_apply m.sys r value i

@[simp] lemma setSys_mem : (m.setSys r value).mem = m.mem := rfl

@[simp] lemma setSp_x : (m.setSp value).x = m.x := rfl

@[simp] lemma setSp_sp : (m.setSp value).sp = value := rfl

@[simp] lemma setSp_v : (m.setSp value).v = m.v := rfl

@[simp] lemma setSp_sys : (m.setSp value).sys = m.sys := rfl

@[simp] lemma setSp_mem : (m.setSp value).mem = m.mem := rfl

@[simp] lemma store_x : (m.store a value).x = m.x := rfl

@[simp] lemma store_sp : (m.store a value).sp = m.sp := rfl

@[simp] lemma store_v : (m.store a value).v = m.v := rfl

@[simp] lemma store_sys : (m.store a value).sys = m.sys := rfl

@[simp] lemma store_mem (i : ℕ) : (m.store a value).mem i = if i = a then value else m.mem i :=
  Function.update_apply m.mem a value i

end simp

/-- An address that does not wrap. -/
lemma addr_of_lt {m : Machine} {b : Base} {off : ℕ} (h : (m.base b).toNat + off < 2 ^ 64) :
    m.addr b off = (m.base b).toNat + off := add64_of_lt h

end Machine

/-- The stack pointer after it has moved down. -/
lemma toNat_sub_ofNat {a : UInt64} {n : ℕ} (h : n ≤ a.toNat) :
    (a - UInt64.ofNat n).toNat = a.toNat - n := by
  have ha := a.toNat_lt
  have hn : (UInt64.ofNat n).toNat = n := by
    rw [UInt64.toNat_ofNat']
    exact Nat.mod_eq_of_lt (by omega)
  rw [UInt64.toNat_sub_of_le _ _ (by rw [UInt64.le_iff_toNat_le, hn]; exact h), hn]

/-- The stack pointer after it has moved up. -/
lemma toNat_add_ofNat {a : UInt64} {n : ℕ} (h : a.toNat + n < 2 ^ 64) :
    (a + UInt64.ofNat n).toNat = a.toNat + n := by
  rw [UInt64.toNat_add, UInt64.toNat_ofNat']
  omega

/-- The effect of an instruction. -/
def Op.run (m : Machine) : Op → Machine
  | .mrs d r => m.setX d (m.sys r)
  | .msr r s => m.setSys r (m.x s)
  | .daifSet imm => m.setSys .daif (m.sys .daif ||| (imm <<< 6))
  | .subSp n => m.setSp (m.sp - UInt64.ofNat n)
  | .addSp n => m.setSp (m.sp + UInt64.ofNat n)
  | .ldr d b off => m.setX d (m.mem (m.addr b off))
  | .ldp d e b off => (m.setX d (m.mem (m.addr b off))).setX e (m.mem (m.addr b (off + 8)))
  | .str s b off => m.store (m.addr b off) (m.read s)
  | .stp s t b off => (m.store (m.addr b off) (m.read s)).store (m.addr b (off + 8)) (m.read t)
  | .push s t n =>
    let m' := m.setSp (m.sp - UInt64.ofNat n)
    (m'.store (m'.addr .sp 0) (m.read s)).store (m'.addr .sp 8) (m.read t)
  | .movImm d imm => m.setX d imm
  | .mov d s => m.setX d (m.read s)
  | .ubfx d s lsb width => m.setX d ((m.x s >>> lsb) &&& ((1 <<< width) - 1))
  | .cmp s imm => { m with z := m.x s == imm }
  | .isb => m

/-- The effect of straight-line code. -/
def runOps (ops : List Op) (m : Machine) : Machine := ops.foldl Op.run m

@[simp] lemma runOps_nil (m : Machine) : runOps [] m = m := rfl

@[simp] lemma runOps_cons (o : Op) (ops : List Op) (m : Machine) :
    runOps (o :: ops) m = runOps ops (o.run m) := rfl

lemma runOps_append (ops ops' : List Op) (m : Machine) :
    runOps (ops ++ ops') m = runOps ops' (runOps ops m) := List.foldl_append

/-- The memory after a push. -/
lemma push_mem {m : Machine} {n : ℕ} (s t : Reg) (h : n ≤ m.sp.toNat) (hn : 8 < n) (a : ℕ) :
    ((Op.push s t n).run m).mem a =
      if a = m.sp.toNat - n + 8 then m.read t
      else if a = m.sp.toNat - n then m.read s else m.mem a := by
  have hlt := m.sp.toNat_lt
  have h₀ : add64 (m.sp.toNat - n) 0 = m.sp.toNat - n := add64_of_lt (by omega)
  have h₈ : add64 (m.sp.toNat - n) 8 = m.sp.toNat - n + 8 := add64_of_lt (by omega)
  simp only [Op.run, Machine.addr, Machine.base_sp, Machine.setSp_sp, toNat_sub_ofNat h, h₀, h₈,
    Machine.store_mem, Machine.setSp_mem]

/-! ## What an instruction can change -/

/-- The general-purpose registers that an instruction writes. -/
def Op.dests : Op → List (Fin 31)
  | .mrs d _ | .ldr d _ _ | .movImm d _ | .mov d _ | .ubfx d _ _ _ => [d]
  | .ldp d e _ _ => [d, e]
  | _ => []

/-- The system registers that an instruction writes. -/
def Op.sysDests : Op → List SysReg
  | .msr r _ => [r]
  | .daifSet _ => [.daif]
  | _ => []

/-- Whether an instruction writes to memory. -/
def Op.stores : Op → Bool
  | .str _ _ _ | .stp _ _ _ _ | .push _ _ _ => true
  | _ => false

/-- Whether an instruction writes the stack pointer. -/
def Op.movesSp : Op → Bool
  | .subSp _ | .addSp _ | .push _ _ _ => true
  | _ => false

/-- A part of the state that no instruction of some code changes is the same after it. -/
lemma runOps_keeps {α : Type*} (part : Machine → α) {l : List Op}
    (h : ∀ o ∈ l, ∀ m, part (o.run m) = part m) (m : Machine) : part (runOps l m) = part m := by
  induction l generalizing m with
  | nil => rfl
  | cons o l ih =>
    rw [runOps_cons, ih fun o ho => h o (List.mem_cons_of_mem _ ho), h o List.mem_cons_self]

/-- A general-purpose register that is not written. -/
lemma runOps_x {l : List Op} {i : Fin 31} (h : ∀ o ∈ l, i ∉ o.dests) (m : Machine) :
    (runOps l m).x i = m.x i := by
  refine runOps_keeps (fun m => m.x i) (fun o ho m => ?_) m
  have hi := h o ho
  cases o <;> simp_all [Op.run, Op.dests]

/-- A system register that is not written. -/
lemma runOps_sys {l : List Op} {r : SysReg} (h : ∀ o ∈ l, r ∉ o.sysDests) (m : Machine) :
    (runOps l m).sys r = m.sys r := by
  refine runOps_keeps (fun m => m.sys r) (fun o ho m => ?_) m
  have hr := h o ho
  cases o <;> simp_all [Op.run, Op.sysDests]

/-- Memory, without a store. -/
lemma runOps_mem {l : List Op} (h : ∀ o ∈ l, o.stores = false) (m : Machine) :
    (runOps l m).mem = m.mem := by
  refine runOps_keeps Machine.mem (fun o ho m => ?_) m
  have hs := h o ho
  cases o <;> simp_all [Op.run, Op.stores]

/-- The stack pointer, when it is not written. -/
lemma runOps_sp {l : List Op} (h : ∀ o ∈ l, o.movesSp = false) (m : Machine) :
    (runOps l m).sp = m.sp := by
  refine runOps_keeps Machine.sp (fun o ho m => ?_) m
  have hs := h o ho
  cases o <;> simp_all [Op.run, Op.movesSp]

/-- None of the instructions touches an FP or SIMD register. -/
lemma runOps_v (l : List Op) (m : Machine) : (runOps l m).v = m.v :=
  runOps_keeps Machine.v (fun o _ m => by cases o <;> simp [Op.run]) m

/-! ## Control flow -/

variable {Label : Type*}

/-- Instructions. -/
inductive Instr (Label : Type*)
  | op (o : Op)
  /-- `b l` -/
  | b (l : Label)
  /-- `b.eq l` -/
  | beq (l : Label)
  /-- `b.ne l` -/
  | bne (l : Label)
  /-- `eret` -/
  | eret
  /-- `ret` -/
  | ret

/-- Straight-line code. -/
def ops (l : List Op) : List (Instr Label) := l.map .op

/-- How code ends. -/
inductive Outcome
  /-- With an exception return. -/
  | eret (m : Machine)
  /-- With a return. -/
  | ret (m : Machine)
  /-- Behind the last instruction. -/
  | fallThrough (m : Machine)
  /-- With more branches taken than were allowed for. -/
  | hang

/-- Run a sequence of instructions; `jump` is what happens at a label. -/
def execBlock (jump : Label → Machine → Outcome) : List (Instr Label) → Machine → Outcome
  | [], m => .fallThrough m
  | .op o :: is, m => execBlock jump is (o.run m)
  | .b l :: _, m => jump l m
  | .beq l :: is, m => if m.z then jump l m else execBlock jump is m
  | .bne l :: is, m => if m.z then execBlock jump is m else jump l m
  | .eret :: _, m => .eret m
  | .ret :: _, m => .ret m

/-- Run the code at a label, through at most `fuel` labels. -/
def exec (code : Label → List (Instr Label)) : ℕ → Label → Machine → Outcome
  | 0, _, _ => .hang
  | fuel + 1, l, m => execBlock (exec code fuel) (code l) m

/-- Straight-line code runs in one step. -/
lemma execBlock_ops (jump : Label → Machine → Outcome) (l : List Op) (is : List (Instr Label))
    (m : Machine) : execBlock jump (ops l ++ is) m = execBlock jump is (runOps l m) := by
  induction l generalizing m with
  | nil => rfl
  | cons o l ih => exact ih (o.run m)

end Aarch64

end HyperBerry
