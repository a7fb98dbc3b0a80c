import HyperBerry.Vcpu.State

/-!
# The run loop of a virtual machine

A model of `Vmm::Run` in `core/vmm/vmm.cpp` with what it calls: `Vm` in `core/vm`, the hypercall and
SMC handlers, and the decoding of the syndrome.

A guest is a stream of exits: what the `n`-th entry leaves in the virtual CPU, and how it ends.  The
world outside of the virtual machine sees that stage 2 is enabled and that the guest is entered;
these events are logged.
-/

namespace HyperBerry

namespace Vmm

/-! ## Decoding -/

/-- `EsrEc::HVC_AARCH64`. -/
def ecHvc64 : UInt64 := 0x16

/-- `EsrEc::SMC_AARCH64`. -/
def ecSmc64 : UInt64 := 0x17

/-- `GetEsrEc`: the exception class, bits 31 to 26. -/
def getEsrEc (esr : UInt64) : UInt64 := (esr >>> 26) &&& 0x3F

/-- `GetEsrIss`: the instruction specific syndrome, bits 24 to 0. -/
def getEsrIss (esr : UInt64) : UInt32 := (esr &&& 0x1FFFFFF).toUInt32

/-- `SMCCC::OWNER_STANDARD`. -/
def ownerStandard : UInt32 := 4

/-- `SMCCC::ToRegister(SMCCC::NOT_SUPPORTED)`. -/
def notSupported : UInt64 := 0xFFFFFFFFFFFFFFFF

/-- `SMCCC::GetOwner`: the owning entity number of a function. -/
def getOwner (funcId : UInt64) : UInt32 := ((funcId >>> 24) &&& 0x3F).toUInt32

/-! ## Handlers -/

/-- `Psci::VERSION`. -/
def psciVersion : UInt64 := 0x84000000

/-- `Psci::SYSTEM_OFF`. -/
def psciSystemOff : UInt64 := 0x84000008

/-- `Psci::SYSTEM_RESET`. -/
def psciSystemReset : UInt64 := 0x84000009

/-- `Psci::FEATURES`. -/
def psciFeatures : UInt64 := 0x8400000A

/-- `Psci::VERSION_1_0`. -/
def psciVersion10 : UInt64 := 0x00010000

/-- `Psci::Supports`. -/
def psciSupports (call : UInt64) : Bool :=
  call == psciVersion || call == psciSystemOff || call == psciSystemReset || call == psciFeatures

/-- `Hvc::Action`. -/
inductive Action
  | resume
  | shutdown
  | reset
deriving DecidableEq

/-- Write to `x[0]`. -/
def setX0 (registers : GuestRegisters) (value : UInt64) : GuestRegisters :=
  { registers with x := Function.update registers.x 0 value }

/-- `Hvc::Handle`. -/
def hvcHandle (registers : GuestRegisters) (immediate : UInt32) : Action × GuestRegisters :=
  if immediate ≠ 0 ∨ getOwner (registers.x 0) ≠ ownerStandard then
    (.resume, setX0 registers notSupported)
  else if registers.x 0 = psciVersion then (.resume, setX0 registers psciVersion10)
  else if registers.x 0 = psciFeatures then
    (.resume, setX0 registers (if psciSupports (registers.x 1) then 0 else notSupported))
  else if registers.x 0 = psciSystemOff then (.shutdown, registers)
  else if registers.x 0 = psciSystemReset then (.reset, registers)
  else (.resume, setX0 registers notSupported)

/-- `Smc::Handle`. -/
def smcHandle (registers : GuestRegisters) : GuestRegisters :=
  let registers := setX0 registers notSupported
  { registers with pc := registers.pc + 4 }

/-! ## The virtual machine -/

/-- `VmState`. -/
inductive VmState
  | ready
  | running
  | shutdown
  | resetRequested
  | faulted
deriving DecidableEq

/-- The virtual machine. -/
structure Vm where
  vcpu : Vcpu
  vmid : UInt8
  state : VmState := .ready
  lastExit : VcpuExit := {}

/-- What the run loop does to the machine around it. -/
inductive Event
  /-- Stage 2 translation is enabled for a virtual machine. -/
  | enableStage2 (vmid : UInt8)
  /-- The guest is entered, in a state of the virtual machine and with the saved registers. -/
  | enter (state : VmState) (vcpu : Vcpu)

/-- A virtual machine, and the events so far. -/
structure World where
  vm : Vm
  log : List Event := []

/-- One guest execution interval: what it leaves in the virtual CPU, and how it ends. -/
structure Interval where
  vcpu : Vcpu
  exit : VcpuExit

namespace World

/-- The constructor of `Vm`, with the value that `vcpu_read_sctlr` returns. -/
def make (sctlr entry dtb : UInt64) (vmid : UInt8) : World where
  vm :=
    { vcpu := { Vcpu.make sctlr entry with
        registers := setX0 (Vcpu.make sctlr entry).registers dtb }
      vmid := vmid }

/-- `Vm::Start`. -/
def start (w : World) : World where
  vm := { w.vm with state := .running }
  log := w.log ++ [.enableStage2 w.vm.vmid]

/-- `Vm::Enter`, for a guest that runs through the interval. -/
def enter (w : World) (interval : Interval) : World where
  vm := { w.vm with vcpu := interval.vcpu, lastExit := interval.exit }
  log := w.log ++ [.enter w.vm.state w.vm.vcpu]

/-- `Vm::Stop`. -/
def stop (w : World) (state : VmState) : World := { w with vm := { w.vm with state := state } }

/-- Write the registers of the virtual CPU. -/
def setRegisters (w : World) (registers : GuestRegisters) : World :=
  { w with vm := { w.vm with vcpu := { w.vm.vcpu with registers := registers } } }

end World

/-- The handling of a synchronous exit. -/
def handleSync (w : World) (exit : VcpuExit) : World :=
  let registers := w.vm.vcpu.registers
  if getEsrEc exit.syndrome = ecHvc64 then
    let r := hvcHandle registers (getEsrIss exit.syndrome)
    let w := w.setRegisters r.2
    match r.1 with
    | .shutdown => w.stop .shutdown
    | .reset => w.stop .resetRequested
    | .resume => w
  else if getEsrEc exit.syndrome = ecSmc64 then w.setRegisters (smcHandle registers)
  else w.stop .faulted

/-- `RunError`. -/
inductive RunError
  | invalidState
deriving DecidableEq

/-- How far a call of `Run` has come. -/
inductive Outcome
  /-- It has returned. -/
  | returned (result : Except RunError VmState) (w : World)
  /-- It is about to enter the guest again. -/
  | running (w : World)

/-- The loop of `Run`, for at most `fuel` passes; `k` is the number of the next interval. -/
def loop (exits : ℕ → Interval) : (fuel k : ℕ) → World → Outcome
  | 0, _, w => .running w
  | fuel + 1, k, w =>
    let exit := (exits k).exit
    let w := w.enter (exits k)
    match exit.reason with
    | .irq | .fiq => loop exits fuel (k + 1) w
    | .serror =>
      let w := w.stop .faulted
      .returned (.ok w.vm.state) w
    | .sync =>
      let w := handleSync w exit
      if w.vm.state ≠ .running then .returned (.ok w.vm.state) w
      else loop exits fuel (k + 1) w

/-- `Vmm::Run`, for at most `fuel` passes of its loop. -/
def run (exits : ℕ → Interval) (fuel : ℕ) (w : World) : Outcome :=
  if w.vm.state ≠ .ready then .returned (.error .invalidState) w
  else loop exits fuel 0 w.start

end Vmm

end HyperBerry
