import HyperBerry.Lib.Aarch64
import HyperBerry.Vcpu.State

/-!
# The world switch

The program text of `core/vcpu/vcpu.S`, with the vectors for exceptions from a guest in
`core/vmm/exceptions/vectors.S` and the offsets that `VcpuLayout::Emit` in
`core/vcpu/vcpuOffsets.cpp` emits.

`vcpu_run(vcpu, exit)` saves the state of the host in a frame on its stack, loads the state of the
guest and returns to it.  The next exception of the guest enters one of the vectors, which end up in
`vcpu_exit`: it saves the state of the guest, fills the report and returns to the caller of
`vcpu_run`.
-/

namespace HyperBerry

open Aarch64

/-! ## The layout of the objects -/

/-- The position of a register among `SystemRegisters`. -/
def SystemRegister.index : SystemRegister → ℕ
  | .sctlr => 0
  | .ttbr0 => 1
  | .ttbr1 => 2
  | .tcr => 3
  | .mair => 4
  | .amair => 5
  | .vbar => 6
  | .elr => 7
  | .spsr => 8
  | .esr => 9
  | .far => 10
  | .afsr0 => 11
  | .afsr1 => 12
  | .contextidr => 13
  | .tpidr => 14
  | .tpidrEl0 => 15
  | .tpidrroEl0 => 16
  | .cntkctl => 17
  | .cpacr => 18
  | .par => 19
  | .csselr => 20

/-- The register that a member of `SystemRegisters` holds. -/
def SystemRegister.reg : SystemRegister → SysReg
  | .sctlr => .sctlrEl1
  | .ttbr0 => .ttbr0El1
  | .ttbr1 => .ttbr1El1
  | .tcr => .tcrEl1
  | .mair => .mairEl1
  | .amair => .amairEl1
  | .vbar => .vbarEl1
  | .elr => .elrEl1
  | .spsr => .spsrEl1
  | .esr => .esrEl1
  | .far => .farEl1
  | .afsr0 => .afsr0El1
  | .afsr1 => .afsr1El1
  | .contextidr => .contextidrEl1
  | .tpidr => .tpidrEl1
  | .tpidrEl0 => .tpidrEl0
  | .tpidrroEl0 => .tpidrroEl0
  | .cntkctl => .cntkctlEl1
  | .cpacr => .cpacrEl1
  | .par => .parEl1
  | .csselr => .csselrEl1

namespace Vcpu

/-- The words of a `Vcpu`. -/
inductive Field
  | x (i : Fin 31)
  | pc
  | pstate
  | spEl0
  | spEl1
  | system (r : SystemRegister)
deriving DecidableEq

/-- The offsets `VCPU_X0` to `VCPU_CSSELR_EL1`. -/
def Field.offset : Field → ℕ
  | .x i => 8 * i.val
  | .pc => 248
  | .pstate => 256
  | .spEl0 => 264
  | .spEl1 => 272
  | .system r => 280 + 8 * r.index

/-- The value of a word. -/
def get (v : Vcpu) : Field → UInt64
  | .x i => v.registers.x i
  | .pc => v.registers.pc
  | .pstate => v.registers.pstate
  | .spEl0 => v.registers.spEl0
  | .spEl1 => v.registers.spEl1
  | .system r => v.system r

end Vcpu

/-- The values `VCPU_EXIT_SYNC` to `VCPU_EXIT_SERROR`. -/
def ExitReason.code : ExitReason → UInt64
  | .sync => 0
  | .irq => 1
  | .fiq => 2
  | .serror => 3

namespace Switch

open Vcpu

/-- `HOST_FRAME_SIZE`. -/
def hostFrameSize : ℕ := 144

/-- `HOST_TPIDR_DAIF`. -/
def hostTpidrDaif : ℕ := 96

/-- `HOST_SP_ELR`. -/
def hostSpElr : ℕ := 112

/-- `HOST_SPSR`. -/
def hostSpsr : ℕ := 128

/-- `HOST_EXIT`. -/
def hostExit : ℕ := 136

/-! ## `vcpu_run` -/

/-- The first lines of `vcpu_run`: save the host. -/
def saveHost : List Op :=
  [.mrs 2 .daif,
   .daifSet 0xf,
   .subSp hostFrameSize,
   .stp (.x 19) (.x 20) .sp 0,
   .stp (.x 21) (.x 22) .sp 16,
   .stp (.x 23) (.x 24) .sp 32,
   .stp (.x 25) (.x 26) .sp 48,
   .stp (.x 27) (.x 28) .sp 64,
   .stp (.x 29) (.x 30) .sp 80,
   .str (.x 1) .sp hostExit,
   .mrs 1 .tpidrEl2,
   .stp (.x 1) (.x 2) .sp hostTpidrDaif,
   .mrs 1 .spEl0,
   .mrs 2 .elrEl2,
   .stp (.x 1) (.x 2) .sp hostSpElr,
   .mrs 1 .spsrEl2,
   .str (.x 1) .sp hostSpsr,
   .msr .tpidrEl2 0]

/-- `restore_register reg, offset`. -/
def restoreRegister (p : SysReg × Field) : List Op :=
  [.ldr 1 (.x 0) p.2.offset, .msr p.1 1]

/-- The uses of `restore_register` before the first barrier. -/
def restoredFirst : List (SysReg × Field) :=
  [(.ttbr0El1, .system .ttbr0),
   (.ttbr1El1, .system .ttbr1),
   (.tcrEl1, .system .tcr),
   (.mairEl1, .system .mair),
   (.amairEl1, .system .amair),
   (.vbarEl1, .system .vbar),
   (.elrEl1, .system .elr),
   (.spsrEl1, .system .spsr),
   (.esrEl1, .system .esr),
   (.farEl1, .system .far),
   (.afsr0El1, .system .afsr0),
   (.afsr1El1, .system .afsr1),
   (.contextidrEl1, .system .contextidr),
   (.tpidrEl1, .system .tpidr),
   (.tpidrEl0, .system .tpidrEl0),
   (.tpidrroEl0, .system .tpidrroEl0),
   (.cntkctlEl1, .system .cntkctl),
   (.cpacrEl1, .system .cpacr),
   (.parEl1, .system .par),
   (.csselrEl1, .system .csselr),
   (.spEl0, .spEl0),
   (.spEl1, .spEl1)]

/-- Load the system registers of the guest. -/
def restoreSystem : List Op :=
  restoredFirst.flatMap restoreRegister ++ [.isb] ++
  restoreRegister (.sctlrEl1, .system .sctlr) ++ [.isb] ++
  [.ldr 1 (.x 0) Field.pc.offset,
   .msr .elrEl2 1,
   .ldr 1 (.x 0) Field.pstate.offset,
   .msr .spsrEl2 1]

/-- `ldp x<i>, x<i + 1>, [x0, #VCPU_X<i>]`. -/
def loadPair (p : Fin 31 × Fin 31) : Op := .ldp p.1 p.2 (.x 0) (Field.x p.1).offset

/-- The pairs of registers from `x4` on that are moved together. -/
def pairs : List (Fin 31 × Fin 31) :=
  [(4, 5), (6, 7), (8, 9), (10, 11), (12, 13), (14, 15), (16, 17), (18, 19), (20, 21), (22, 23),
   (24, 25), (26, 27), (28, 29)]

/-- Load the general-purpose registers of the guest, the one with the address of the `Vcpu` last. -/
def restoreGeneral : List Op :=
  (((2, 3) :: pairs).map loadPair) ++
  [.ldr 30 (.x 0) (Field.x 30).offset,
   .ldp 0 1 (.x 0) (Field.x 0).offset]

/-! ## `vcpu_exit` -/

/-- The labels. -/
inductive Label
  | vcpuRun
  /-- The vector of a kind of exception from a lower level. -/
  | vector (reason : ExitReason)
  /-- `vcpu_exit_sync` to `vcpu_exit_serror`. -/
  | vcpuExitOf (reason : ExitReason)
  | vcpuExit
  /-- `1:` -/
  | leave
  /-- `2:` -/
  | abort

/-- What all of the vectors begin with. -/
def pushScratch : List Op := [.push (.x 0) (.x 1) 16, .push (.x 2) (.x 3) 16]

/-- What a vector does before it branches. -/
def vectorOps : ExitReason → List Op
  | .sync => pushScratch ++ [.mrs 0 .esrEl2]
  | .irq => pushScratch
  | .fiq => pushScratch
  | .serror => pushScratch ++ [.mrs 0 .esrEl2]

/-- What `vcpu_exit_sync` to `vcpu_exit_serror` do before they branch. -/
def exitOps : ExitReason → List Op
  | .sync => [.movImm 1 ExitReason.sync.code]
  | .irq => [.mov 0 .zr, .movImm 1 ExitReason.irq.code]
  | .fiq => [.mov 0 .zr, .movImm 1 ExitReason.fiq.code]
  | .serror => [.movImm 1 ExitReason.serror.code]

/-- Move a word from the stack to a general-purpose register of the `Vcpu`. -/
def moveScratch (p : ℕ × Fin 31) : List Op :=
  [.ldr 3 .sp p.1, .str (.x 3) (.x 2) (Field.x p.2).offset]

/-- Where the vector has left `x0` to `x3`. -/
def scratch : List (ℕ × Fin 31) := [(32, 0), (40, 1), (16, 2), (24, 3)]

/-- `stp x<i>, x<i + 1>, [x2, #VCPU_X<i>]`. -/
def storePair (p : Fin 31 × Fin 31) : Op := .stp (.x p.1) (.x p.2) (.x 2) (Field.x p.1).offset

/-- Save the general-purpose registers of the guest. -/
def saveGeneral : List Op :=
  [.push (.x 1) (.x 0) 16, .mrs 2 .tpidrEl2] ++ scratch.flatMap moveScratch ++
  pairs.map storePair ++
  [.str (.x 30) (.x 2) (Field.x 30).offset,
   .mov 0 (.x 2)]

/-- `save_register reg, offset`. -/
def saveRegister (p : SysReg × Field) : List Op :=
  [.mrs 1 p.1, .str (.x 1) (.x 0) p.2.offset]

/-- The uses of `save_register`, and the same two instructions for the program counter and the
processor state. -/
def saved : List (SysReg × Field) :=
  [(.sctlrEl1, .system .sctlr),
   (.ttbr0El1, .system .ttbr0),
   (.ttbr1El1, .system .ttbr1),
   (.tcrEl1, .system .tcr),
   (.mairEl1, .system .mair),
   (.amairEl1, .system .amair),
   (.vbarEl1, .system .vbar),
   (.elrEl1, .system .elr),
   (.spsrEl1, .system .spsr),
   (.esrEl1, .system .esr),
   (.farEl1, .system .far),
   (.afsr0El1, .system .afsr0),
   (.afsr1El1, .system .afsr1),
   (.contextidrEl1, .system .contextidr),
   (.tpidrEl1, .system .tpidr),
   (.tpidrEl0, .system .tpidrEl0),
   (.tpidrroEl0, .system .tpidrroEl0),
   (.cntkctlEl1, .system .cntkctl),
   (.cpacrEl1, .system .cpacr),
   (.parEl1, .system .par),
   (.csselrEl1, .system .csselr),
   (.spEl0, .spEl0),
   (.spEl1, .spEl1),
   (.elrEl2, .pc),
   (.spsrEl2, .pstate)]

/-- Fill the report as for an exit that is no abort. -/
def fillReport : List Op :=
  [.ldr 3 .sp (48 + hostExit),
   .ldp 4 5 .sp 0,
   .stp (.x 4) (.x 5) (.x 3) 0,
   .stp .zr .zr (.x 3) 16]

/-- Fill the fault addresses. -/
def fillAbort : List Op :=
  [.mrs 4 .farEl2,
   .mrs 5 .hpfarEl2,
   .stp (.x 4) (.x 5) (.x 3) 16]

/-- Restore the host. -/
def restoreHost : List Op :=
  [.addSp 48,
   .ldp 2 3 .sp hostSpElr,
   .msr .spEl0 2,
   .msr .elrEl2 3,
   .ldr 2 .sp hostSpsr,
   .msr .spsrEl2 2,
   .ldp 2 3 .sp hostTpidrDaif,
   .msr .tpidrEl2 2,
   .ldp 19 20 .sp 0,
   .ldp 21 22 .sp 16,
   .ldp 23 24 .sp 32,
   .ldp 25 26 .sp 48,
   .ldp 27 28 .sp 64,
   .ldp 29 30 .sp 80,
   .addSp hostFrameSize,
   .msr .daif 3]

/-- From `1:` on. -/
def leaveCode : List (Instr Label) := ops restoreHost ++ [.ret]

/-- From `2:` on. -/
def abortCode : List (Instr Label) := ops fillAbort ++ leaveCode

/-- Branch on the exception class. -/
def classify : List (Instr Label) :=
  [.op (.cmp 4 ExitReason.sync.code),
   .bne .leave,
   .op (.ubfx 4 5 26 6),
   .op (.cmp 4 0x20),
   .beq .abort,
   .op (.cmp 4 0x21),
   .beq .abort,
   .op (.cmp 4 0x24),
   .beq .abort,
   .op (.cmp 4 0x25),
   .bne .leave]

/-- The program text. -/
def code : Label → List (Instr Label)
  | .vcpuRun => ops (saveHost ++ restoreSystem ++ restoreGeneral) ++ [.eret]
  | .vector reason => ops (vectorOps reason) ++ [.b (.vcpuExitOf reason)]
  | .vcpuExitOf reason => ops (exitOps reason) ++ [.b .vcpuExit]
  | .vcpuExit =>
    ops (saveGeneral ++ saved.flatMap saveRegister ++ fillReport) ++ (classify ++ abortCode)
  | .leave => leaveCode
  | .abort => abortCode

/-- Run from a label.  No path from a vector to the end passes more than four labels. -/
def runFrom (l : Label) (m : Machine) : Outcome := exec code 4 l m

end Switch

end HyperBerry
