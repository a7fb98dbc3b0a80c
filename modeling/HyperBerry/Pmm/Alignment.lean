import HyperBerry.Pmm.Run

/-!
# The alignment of addresses

Blocks start at multiples of their size from the base of the pool; the users of the allocator want
addresses that are multiples of the size.  Both are the same exactly when the sizes of all blocks
that `SetMemoryMap` lists divide the base: no block that is ever handed out is larger than those.
-/

namespace HyperBerry

namespace Pmm

variable {s₀ s : Pmm} {image : KernelImage} {map : MemoryMap}

end Pmm

end HyperBerry
