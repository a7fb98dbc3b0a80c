import HyperBerry.Pmm.SetMemoryMap

/-!
# Runs of the allocator

A `System` is the allocator together with the blocks its clients hold.  From the state that
`SetMemoryMap` returns, clients allocate and free blocks in any order (`System.call`), and memory
outside the links of the free blocks changes freely (`Step`).

`Tracks` ties a system to the invariant of the allocator.  Every step keeps it, so it holds along
every run (`Tracks.run`), and with it the partition of the pool into free and live blocks
(`partitioned_of_run`).
-/

namespace HyperBerry

open LinkedList

namespace Pmm

/-- A block of physical memory: its address and its order. -/
structure Extent where
  /-- The address of the first byte. -/
  addr : ℕ
  /-- The order of the block. -/
  order : ℕ
deriving DecidableEq

/-- The bytes of a block. -/
def Extent.bytes (e : Extent) : Set ℕ := Set.Ico e.addr (e.addr + pageSize <<< e.order)

/-- The bytes of a list of blocks. -/
def bytesOf (l : List Extent) : Set ℕ := {a | ∃ e ∈ l, a ∈ e.bytes}

/-- The allocator and the blocks that have been handed out and not freed since. -/
structure System where
  /-- The state of the allocator. -/
  pmm : Pmm
  /-- The live blocks. -/
  live : List Extent

/-- The blocks on the free lists. -/
def System.freeBlocks (t : System) : List Extent :=
  (List.range numOrders).flatMap fun o => (t.pmm.freeList o).map fun a => ⟨a, o⟩

/-- All blocks: the free ones and the live ones. -/
def System.blocks (t : System) : List Extent := t.freeBlocks ++ t.live

/-- A call of a client. -/
inductive Call where
  /-- `AllocPages` with an order. -/
  | alloc (order : ℕ)
  /-- `FreePages` with a block and its order. -/
  | free (e : Extent)

/-- The effect of a call.  A client frees only blocks it holds, with their own order; `none` when it
does not, or when the call never returns. -/
def System.call (t : System) : Call → Option System
  | .alloc order => (t.pmm.allocPages order).map fun r =>
      ⟨r.1, if r.2 = 0 then t.live else ⟨r.2, order⟩ :: t.live⟩
  | .free e =>
      if e ∈ t.live then (t.pmm.freePages e.addr e.order).map fun s => ⟨s, t.live.erase e⟩
      else none

/-- One step of a system. -/
inductive Step : System → System → Prop
  /-- A client call returns. -/
  | call {t t' : System} (c : Call) : t.call c = some t' → Step t t'
  /-- Memory that holds no link of a free block changes. -/
  | write {t : System} {next : ℕ → ℕ} :
      (∀ e ∈ t.freeBlocks, next e.addr = t.pmm.next e.addr) →
      Step t ⟨{ t.pmm with next := next }, t.live⟩

/-- Any number of steps. -/
abbrev Run : System → System → Prop := Relation.ReflTransGen Step

/-- A sequence of calls is a run. -/
lemma run_of_calls : ∀ (cs : List Call) {t t' : System},
    cs.foldlM System.call t = some t' → Run t t' := by
  intro cs
  induction cs with
  | nil =>
    intro t t' h
    rw [List.foldlM_nil, Option.pure_def, Option.some.injEq] at h
    exact h ▸ Relation.ReflTransGen.refl
  | cons c cs ih =>
    intro t t' h
    rw [List.foldlM_cons, Option.bind_eq_bind, Option.bind_eq_some_iff] at h
    obtain ⟨t₁, hcall, hrest⟩ := h
    exact Relation.ReflTransGen.head (Step.call c hcall) (ih hrest)

/-! ## Blocks of pages as blocks of memory -/

/-- The memory of a block of pages. -/
def extent (base : ℕ) (b : Block) : Extent := ⟨pageAddr base b.page, b.order⟩

/-- A byte lies in a block when its page does. -/
lemma mem_bytes_extent {base a : ℕ} {b : Block} :
    a ∈ (extent base b).bytes ↔ base ≤ a ∧ (a - base) / pageSize ∈ b.pages := by
  have hmem : a ∈ (extent base b).bytes ↔
      pageAddr base b.page ≤ a ∧ a < pageAddr base (b.page + 2 ^ b.order) := by
    rw [← pageAddr_add_blockSize]
    exact Iff.rfl
  rw [hmem, Block.mem_pages]
  unfold pageAddr pageSize
  omega

/-- Distinct blocks of pages are distinct blocks of memory. -/
lemma extent_injective (base : ℕ) : Function.Injective (extent base) := by
  intro b c h
  rw [extent, extent, Extent.mk.injEq] at h
  exact Block.ext h.2 (pageAddr_injective base h.1)

/-- Disjoint blocks of pages are disjoint in memory. -/
lemma disjoint_bytes {base : ℕ} {b c : Block} (h : Disjoint b.pages c.pages) :
    Disjoint (extent base b).bytes (extent base c).bytes := by
  rw [Set.disjoint_left] at h ⊢
  intro a hb hc
  exact h (mem_bytes_extent.mp hb).2 (mem_bytes_extent.mp hc).2

/-- The bytes of a list of blocks are those of the pages it covers. -/
lemma bytesOf_map_extent (base : ℕ) (l : List Block) :
    bytesOf (l.map (extent base)) = {a | base ≤ a ∧ (a - base) / pageSize ∈ cover l} := by
  ext a
  simp only [bytesOf, List.mem_map, Set.mem_ofPred_eq, mem_cover]
  constructor
  · rintro ⟨_, ⟨b, hb, rfl⟩, ha⟩
    obtain ⟨hle, hpage⟩ := mem_bytes_extent.mp ha
    exact ⟨hle, b, hb, hpage⟩
  · rintro ⟨hle, b, hb, hpage⟩
    exact ⟨_, ⟨b, hb, rfl⟩, mem_bytes_extent.mpr ⟨hle, hpage⟩⟩

section Run

variable {base n : ℕ} {P : Set ℕ} {s : Pmm} {free : ℕ → List ℕ} {held : List Block}
  {t t' : System}

/-- The free list of an order, read off the links. -/
lemma Inv.freeList_eq (h : Inv base n P s free held) {o : ℕ} (ho : o ≤ maxOrder) :
    s.freeList o = (free o).map (pageAddr base) := by
  rw [freeList, h.lists.freeList_eq ho (h.free_nodup ho) (h.free_addr_lt ho), Option.getD_some]

/-- The listed blocks of a state. -/
lemma Inv.freeBlocks_eq (h : Inv base n P s free held) (live : List Extent) :
    (System.mk s live).freeBlocks = (blocksOf maxOrder free).map (extent base) := by
  rw [System.freeBlocks, blocksOf, List.map_flatMap]
  refine List.flatMap_congr fun o ho => ?_
  have hle : o ≤ maxOrder := Nat.lt_succ_iff.mp (List.mem_range.mp ho)
  simp only [h.freeList_eq hle, List.map_map]
  rfl

/-- The invariant does not depend on memory that holds no link. -/
lemma Inv.write (h : Inv base n P s free held) {next : ℕ → ℕ}
    (hnext : ∀ e ∈ (blocksOf maxOrder free).map (extent base), next e.addr = s.next e.addr) :
    Inv base n P { s with next := next } free held where
  base_eq := h.base_eq
  pool hP := ⟨(h.pool hP).size_eq, (h.pool hP).pages_le, (h.pool hP).end_lt⟩
  ne_zero := h.ne_zero
  lists o ho := by
    refine (h.lists o ho).congr fun x hx => ?_
    obtain ⟨p, hp, rfl⟩ := List.mem_map.mp hx
    exact hnext (extent base ⟨o, p⟩) (List.mem_map_of_mem (mem_blocksOf.mpr ⟨ho, hp⟩))
  tiling := h.tiling
  cover_eq := h.cover_eq
  bits := h.bits
  coalesced := h.coalesced

/-- The allocator satisfies its invariant, and the blocks outside the free lists are the live ones.
-/
def Tracks (base n : ℕ) (P : Set ℕ) (t : System) : Prop :=
  ∃ free held, Inv base n P t.pmm free held ∧ t.live = held.map (extent base)

/-- Every call keeps the invariant. -/
lemma Tracks.call (h : Tracks base n P t) {c : Call} (hcall : t.call c = some t') :
    Tracks base n P t' := by
  obtain ⟨free, held, hinv, hlive⟩ := h
  cases c with
  | alloc order =>
    rw [System.call] at hcall
    rcases hinv.allocPages order with ⟨hrun, -⟩ | ⟨s', free', p, hrun, hne, hinv', -⟩
    · rw [hrun, Option.map_some, if_pos rfl, Option.some.injEq] at hcall
      subst hcall
      exact ⟨free, held, hinv, hlive⟩
    · rw [hrun, Option.map_some, if_neg hne, Option.some.injEq] at hcall
      subst hcall
      exact ⟨free', ⟨order, p⟩ :: held, hinv', by rw [hlive, List.map_cons]; rfl⟩
  | free e =>
    rw [System.call] at hcall
    split at hcall
    case isFalse => exact absurd hcall (by simp)
    case isTrue hmem =>
      rw [hlive] at hmem
      obtain ⟨b, hb, rfl⟩ := List.mem_map.mp hmem
      obtain ⟨s', free', hrun, hinv'⟩ := (hinv.held_perm (List.perm_cons_erase hb)).freePages
      rw [extent, hrun, Option.map_some, Option.some.injEq] at hcall
      subst hcall
      refine ⟨free', held.erase b, hinv', ?_⟩
      rw [hlive, List.map_erase (extent_injective base), extent]

/-- Every step keeps the invariant. -/
lemma Tracks.step (h : Tracks base n P t) (hstep : Step t t') : Tracks base n P t' := by
  cases hstep with
  | call c hcall => exact h.call hcall
  | write hnext =>
    obtain ⟨free, held, hinv, hlive⟩ := h
    rw [hinv.freeBlocks_eq t.live] at hnext
    exact ⟨free, held, hinv.write hnext, hlive⟩

/-- The invariant holds along every run. -/
lemma Tracks.run (h : Tracks base n P t) (hrun : Run t t') : Tracks base n P t' := by
  induction hrun with
  | refl => exact h
  | tail _ hstep ih => exact ih.step hstep

/-- Every allocation returns. -/
lemma Tracks.alloc_returns (h : Tracks base n P t) (order : ℕ) :
    (t.pmm.allocPages order).isSome := by
  obtain ⟨free, held, hinv, -⟩ := h
  rcases hinv.allocPages order with ⟨hfail, -⟩ | ⟨s', free', p, hrun, -, -⟩
  · rw [hfail, Option.isSome_some]
  · rw [hrun, Option.isSome_some]

/-- Every release of a live block returns. -/
lemma Tracks.free_returns (h : Tracks base n P t) {e : Extent} (he : e ∈ t.live) :
    (t.pmm.freePages e.addr e.order).isSome := by
  obtain ⟨free, held, hinv, hlive⟩ := h
  rw [hlive] at he
  obtain ⟨b, hb, rfl⟩ := List.mem_map.mp he
  obtain ⟨s', free', hrun, -⟩ := (hinv.held_perm (List.perm_cons_erase hb)).freePages
  rw [extent, hrun, Option.isSome_some]

/-- All blocks of a tracked system. -/
lemma Tracks.exists_blocks_eq (h : Tracks base n P t) :
    ∃ l, t.blocks = l.map (extent base) ∧ Tiling n maxOrder l ∧ cover l = P := by
  obtain ⟨free, held, hinv, hlive⟩ := h
  refine ⟨blocksOf maxOrder free ++ held, ?_, hinv.tiling, hinv.cover_eq⟩
  rw [System.blocks, hlive, hinv.freeBlocks_eq, List.map_append]

/-- The bytes of free and live blocks. -/
lemma Tracks.bytesOf_blocks (h : Tracks base n P t) :
    bytesOf t.blocks = {a | base ≤ a ∧ (a - base) / pageSize ∈ P} := by
  obtain ⟨l, hl, -, hcover⟩ := h.exists_blocks_eq
  rw [hl, bytesOf_map_extent, hcover]

/-! ## From bring-up -/

/-- The pages that are free when `SetMemoryMap` returns. -/
def listedPages (image : KernelImage) (map : MemoryMap) : Set ℕ :=
  {x | ∃ b, Listed image map b ∧ x ∈ b.pages}

/-- The state after bring-up, with the blocks that are listed in it. -/
lemma inv_of_setMemoryMap {s₀ : Pmm} {image : KernelImage} {map : MemoryMap}
    (h : s₀.setMemoryMap image map = some s) :
    ∃ free, Inv map.memBase.toNat (poolPages map) (listedPages image map) s free [] ∧
      ∀ b, b ∈ blocksOf maxOrder free ↔ Listed image map b := by
  obtain ⟨free, lost, hboot, hmem⟩ := boot_of_setMemoryMap h
  have hcover : cover (blocksOf maxOrder free) = listedPages image map := by
    ext x
    simp only [mem_cover, hmem, listedPages, Set.mem_ofPred_eq]
  exact ⟨free, hcover ▸ hboot.inv, hmem⟩

/-- The blocks that are free when `SetMemoryMap` returns. -/
lemma mem_blocks_of_setMemoryMap {s₀ : Pmm} {image : KernelImage} {map : MemoryMap}
    (h : s₀.setMemoryMap image map = some s) {e : Extent} :
    e ∈ (System.mk s []).blocks ↔ ∃ b, Listed image map b ∧ extent map.memBase.toNat b = e := by
  obtain ⟨free, hinv, hmem⟩ := inv_of_setMemoryMap h
  simp only [System.blocks, List.append_nil, hinv.freeBlocks_eq, List.mem_map, hmem]

/-- Every state reached from bring-up is tracked, for the pages that were free then. -/
lemma tracks_of_run {s₀ : Pmm} {image : KernelImage} {map : MemoryMap}
    (h : s₀.setMemoryMap image map = some s) (hrun : Run ⟨s, []⟩ t) :
    Tracks map.memBase.toNat (poolPages map) (listedPages image map) t := by
  obtain ⟨free, hinv, -⟩ := inv_of_setMemoryMap h
  exact Tracks.run ⟨free, [], hinv, rfl⟩ hrun

/-! ## The partition of the pool -/

/-- The free and live blocks of `t` partition the memory that is free in `s`, and every call
returns. -/
structure Partitioned (map : MemoryMap) (s : Pmm) (t : System) : Prop where
  /-- Every free list ends at the null link. -/
  ends : ∀ o ≤ maxOrder, IsChain t.pmm.next (t.pmm.freeLists o) (t.pmm.freeList o)
  /-- Free and live blocks are pairwise disjoint. -/
  disjoint : t.blocks.Pairwise fun e e' => Disjoint e.bytes e'.bytes
  /-- No block is listed twice. -/
  nodup : t.blocks.Nodup
  /-- Every block lies in the pool. -/
  within : ∀ e ∈ t.blocks, e.order ≤ maxOrder ∧ map.memBase.toNat ≤ e.addr ∧
    e.addr + pageSize <<< e.order ≤ map.memBase.toNat + map.memSize.toNat
  /-- Every block starts at a multiple of its size from the base of the pool. -/
  aligned : ∀ e ∈ t.blocks, pageSize <<< e.order ∣ e.addr - map.memBase.toNat
  /-- Free and live memory together is what was free at first. -/
  union : bytesOf t.blocks = bytesOf (System.mk s []).blocks
  /-- An allocation that fails changes nothing. -/
  alloc_failed : ∀ order s', t.pmm.allocPages order = some (s', 0) → s' = t.pmm
  /-- Every allocation returns. -/
  alloc_returns : ∀ order, (t.pmm.allocPages order).isSome
  /-- Every release of a live block returns. -/
  free_returns : ∀ e ∈ t.live, (t.pmm.freePages e.addr e.order).isSome

/-- A failed allocation changes nothing. -/
lemma Inv.allocPages_zero (h : Inv base n P s free held) {order : ℕ} {s' : Pmm}
    (hrun : s.allocPages order = some (s', 0)) : s' = s := by
  rcases h.allocPages order with ⟨hfail, -⟩ | ⟨s'', free', p, hrun', hne, -⟩
  · rw [hrun, Option.some.injEq, Prod.mk.injEq] at hfail
    exact hfail.1
  · rw [hrun, Option.some.injEq, Prod.mk.injEq] at hrun'
    exact absurd hrun'.2.symm hne

/-- In every state that clients can reach, the free and live blocks partition the memory that was
free when `SetMemoryMap` returned. -/
theorem partitioned_of_run {s₀ s : Pmm} {image : KernelImage} {map : MemoryMap} {t : System}
    (h : s₀.setMemoryMap image map = some s) (hrun : Run ⟨s, []⟩ t) : Partitioned map s t := by
  have htracks := tracks_of_run h hrun
  have htracks₀ := tracks_of_run h (Relation.ReflTransGen.refl)
  obtain ⟨l, hl, htiling, -⟩ := htracks.exists_blocks_eq
  have hunion : bytesOf t.blocks = bytesOf (System.mk s []).blocks := by
    rw [htracks.bytesOf_blocks, htracks₀.bytesOf_blocks]
  have halloc := htracks.alloc_returns
  have hfree : ∀ e ∈ t.live, (t.pmm.freePages e.addr e.order).isSome :=
    fun e => htracks.free_returns
  obtain ⟨free, held, hinv, hlive⟩ := htracks
  have hn : pageSize * poolPages map ≤ map.memSize.toNat := Nat.mul_div_le _ _
  refine
    { ends := fun o ho => ?_
      disjoint := ?_
      nodup := ?_
      within := ?_
      aligned := ?_
      union := hunion
      alloc_failed := fun order s' => hinv.allocPages_zero
      alloc_returns := halloc
      free_returns := hfree }
  · rw [hinv.freeList_eq ho]
    exact hinv.lists o ho
  · rw [hl]
    exact List.pairwise_map.mpr (htiling.disjoint.imp disjoint_bytes)
  · rw [hl]
    exact htiling.nodup.map (extent_injective _)
  · intro e he
    rw [hl] at he
    obtain ⟨b, hb, rfl⟩ := List.mem_map.mp he
    have hend : pageSize * (b.page + 2 ^ b.order) ≤ pageSize * poolPages map :=
      Nat.mul_le_mul_left _ (htiling.bound b hb)
    refine ⟨htiling.order_le b hb, Nat.le_add_right _ _, ?_⟩
    change pageAddr map.memBase.toNat b.page + pageSize <<< b.order ≤ _
    rw [pageAddr_add_blockSize, pageAddr]
    omega
  · intro e he
    rw [hl] at he
    obtain ⟨b, hb, rfl⟩ := List.mem_map.mp he
    rw [extent, pageAddr, Nat.add_sub_cancel_left, pageSize_shiftLeft]
    exact Nat.mul_dvd_mul_left _ (htiling.aligned b hb)

/-- A run that splits a block of order `1` in a pool of three pages and frees its lower half. -/
theorem partitioned_three_pages :
    ∃ s t, (cleared {} fun _ => 0).setMemoryMap ⟨0x40080000, 0x40090000⟩
        { memBase := 0x40000000, memSize := 0x3000 } = some s ∧ Run ⟨s, []⟩ t ∧
      t.live = [⟨0x40001000, 0⟩, ⟨0x40002000, 0⟩] ∧
      Partitioned { memBase := 0x40000000, memSize := 0x3000 } s t := by
  have hrun : ((((cleared {} fun _ => 0).setMemoryMap ⟨0x40080000, 0x40090000⟩
      { memBase := 0x40000000, memSize := 0x3000 }).bind fun s =>
        [Call.alloc 0, .alloc 0, .alloc 0, .free ⟨0x40000000, 0⟩].foldlM System.call
          ⟨s, []⟩).map System.live) = some [⟨0x40001000, 0⟩, ⟨0x40002000, 0⟩] := by
    decide +kernel
  obtain ⟨t, ht, hlive⟩ := Option.map_eq_some_iff.mp hrun
  obtain ⟨s, hs, hcalls⟩ := Option.bind_eq_some_iff.mp ht
  exact ⟨s, t, hs, run_of_calls _ hcalls, hlive, partitioned_of_run hs (run_of_calls _ hcalls)⟩

end Run

end Pmm

end HyperBerry
