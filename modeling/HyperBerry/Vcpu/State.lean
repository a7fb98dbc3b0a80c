import Mathlib

/-!
# Guest state

The saved state of a virtual CPU and the report of an exit, from `core/vcpu/vcpu.h`.
-/

namespace HyperBerry

/-- There is a register `x0`. -/
instance neZero_thirtyOne : NeZero 31 := ⟨by decide⟩

/-- The registers of a guest that handlers can change. -/
@[ext]
structure GuestRegisters where
  x : Fin 31 → UInt64 := fun _ => 0
  pc : UInt64 := 0
  /-- EL1h with DAIF masked at first. -/
  pstate : UInt64 := 0x3C5
  spEl0 : UInt64 := 0
  spEl1 : UInt64 := 0

/-- The members of `SystemRegisters`, in their order. -/
inductive SystemRegister
  | sctlr
  | ttbr0
  | ttbr1
  | tcr
  | mair
  | amair
  | vbar
  | elr
  | spsr
  | esr
  | far
  | afsr0
  | afsr1
  | contextidr
  | tpidr
  | tpidrEl0
  | tpidrroEl0
  | cntkctl
  | cpacr
  | par
  | csselr
deriving DecidableEq

/-- The saved state of a guest. -/
@[ext]
structure Vcpu where
  registers : GuestRegisters := {}
  system : SystemRegister → UInt64 := fun _ => 0

/-- Why a guest has stopped. -/
inductive ExitReason
  | sync
  | irq
  | fiq
  | serror
deriving DecidableEq

/-- The report of an exit. -/
structure VcpuExit where
  reason : ExitReason := .sync
  syndrome : UInt64 := 0
  far : UInt64 := 0
  hpfar : UInt64 := 0
deriving DecidableEq

namespace Vcpu

/-- `DISABLED_CONTROLS` of the constructor: MMU, alignment checks and caches. -/
def disabledControls : UInt64 :=
  (1 : UInt64) <<< 0 ||| (1 : UInt64) <<< 1 ||| (1 : UInt64) <<< 2 ||| (1 : UInt64) <<< 3 |||
    (1 : UInt64) <<< 12

/-- The constructor, with the value that `vcpu_read_sctlr` returns. -/
def make (sctlr entry : UInt64) : Vcpu where
  registers := { pc := entry }
  system := fun r => match r with
    | .sctlr => sctlr &&& ~~~ disabledControls
    | _ => 0

end Vcpu

end HyperBerry
