import HyperBerry.BootLoader.PatchEffect

/-!
# The patched tree before the parser

After `Load` the hypervisor parses the patched tree where it lies in guest memory.  The patcher and
the validation of the parser were written apart: here is when the parser accepts what the patcher
has accepted, and what it reads then.
-/

namespace HyperBerry

namespace BootLoader

open Memory DtbPatcher Walk
open DeviceTree hiding inBounds

variable {layout : GuestLayout} {m m' n : Memory} {size base : ℕ} {f : HeaderField → ℕ}
  {t : Token} {a b e : ℕ} {l : List (ℕ × Token)} {path : List Name}

/-! ## Copies -/

/-- A copy of a buffer at an address. -/
def IsCopy (n : Memory) (base : ℕ) (m : Memory) (size : ℕ) : Prop := ∀ i < size, n (base + i) = m i

/-- Bytes of the buffer in the copy. -/
lemma IsCopy.hasBytes {xs : List UInt8} (h : IsCopy n base m size) (hbytes : m.HasBytes a xs)
    (hle : a + xs.length ≤ size) : n.HasBytes (base + a) xs := by
  intro i hi
  rw [Nat.add_assoc, h (a + i) (by omega)]
  exact hbytes i hi

/-- Tokens at another address. -/
def shift (base : ℕ) (l : List (ℕ × Token)) : List (ℕ × Token) := l.map fun p => (base + p.1, p.2)

/-- A token of the buffer in a copy at an aligned address. -/
lemma IsCopy.tokenAt (h : IsCopy n base m size) (hbase : 4 ∣ base)
    (hstruct : f .structOff + f .sizeStructs ≤ size)
    (hstrings : f .stringsOff + f .sizeStrings ≤ size)
    (ht : TokenAt ((headerBlocks f).blob m) a t b) :
    TokenAt (blobOf n base f) (base + a) t (base + b) := by
  have hend : (blobOf n base f).structEnd = base + (f .structOff + f .sizeStructs) :=
    Nat.add_assoc _ _ _
  have hword {a v : ℕ} (hw : ((headerBlocks f).blob m).Word a v) :
      (blobOf n base f).Word (base + a) v := by
    have hle : a + 4 ≤ f .structOff + f .sizeStructs := hw.le
    refine ⟨by omega, hw.lt, h.hasBytes hw.bytes ?_⟩
    rw [length_beBytes]
    omega
  have hround (c : ℕ) : base + roundUp4 c = roundUp4 (base + c) := (roundUp4_add hbase).symm
  cases ht with
  | @beginNode name hw hname hlt =>
    have hlt' : a + 4 + name.length < f .structOff + f .sizeStructs := hlt
    rw [hround, ← Nat.add_assoc, ← Nat.add_assoc, ← Nat.add_assoc]
    refine .beginNode (hword hw) ⟨hname.not_mem, ?_⟩ (by omega)
    rw [Nat.add_assoc]
    refine h.hasBytes hname.bytes ?_
    rw [List.length_append, List.length_singleton]
    omega
  | endNode hw => exact .endNode (hword hw)
  | @prop nameOff name value hw hlen hoff hname hvalue hle =>
    have hle' : a + 12 + value.length ≤ f .structOff + f .sizeStructs := hle
    rw [hround, ← Nat.add_assoc, ← Nat.add_assoc]
    refine .prop (hword hw) (hword hlen) (hword hoff) ⟨hname.lt, hname.string.not_mem, ?_⟩ ?_
      (by omega)
    · have hlt : nameOff + name.length < f .sizeStrings := hname.lt
      have hstring := h.hasBytes hname.string.bytes (by
        rw [List.length_append, List.length_singleton]
        simp only
        omega)
      rwa [← Nat.add_assoc] at hstring
    · rw [Nat.add_assoc]
      exact h.hasBytes hvalue (by omega)
  | nop hw => exact .nop (hword hw)
  | finish hw => exact .finish (hword hw)

/-- The tokens of the buffer in a copy at an aligned address. -/
lemma IsCopy.tokens (h : IsCopy n base m size) (hbase : 4 ∣ base)
    (hstruct : f .structOff + f .sizeStructs ≤ size)
    (hstrings : f .stringsOff + f .sizeStrings ≤ size)
    (hl : Tokens ((headerBlocks f).blob m) a l b) :
    Tokens (blobOf n base f) (base + a) (shift base l) (base + b) := by
  induction hl with
  | nil a => exact .nil _
  | cons ht _ ih => exact .cons (h.tokenAt hbase hstruct hstrings ht) ih

/-- Balance is a matter of the tokens, not of their places. -/
lemma balanced_shift : Balanced path (shift base l) ↔ Balanced path l := by
  induction l generalizing path with
  | nil => rfl
  | cons p l ih =>
    obtain ⟨a, t⟩ := p
    cases t with
    | finish =>
      simp only [shift, List.map_cons, DeviceTree.Balanced, List.map_eq_nil_iff]
    | beginNode name => exact ih
    | endNode => exact and_congr_right fun _ => ih
    | prop nameOff name value => exact ih
    | nop => exact ih

/-- Nesting is a matter of the tokens, not of their places. -/
lemma nesting_shift : nesting path (shift base l) = nesting path l := by
  induction l generalizing path with
  | nil => rfl
  | cons p l ih =>
    rw [nesting, ← ih]
    rfl

/-- Filling the slots keeps the tokens balanced. -/
lemma balanced_fill (h : Balanced path (l ++ [(e, .finish)])) :
    Balanced path (fill layout path l ++ [(e, .finish)]) := by
  induction l generalizing path with
  | nil => exact h
  | cons p l ih =>
    obtain ⟨a, t⟩ := p
    rw [List.cons_append] at h
    rcases h.cons_cases with ⟨-, -, hnil⟩ | ⟨hfin, hend, hrest⟩
    · exact absurd hnil (by simp)
    · refine Balanced.cons ?_ ?_ ?_
      · cases t <;> simp_all [fillToken]
      · cases t <;> simp_all [fillToken]
      · rw [pathAfter_fillToken]
        exact ih hrest

/-- Filling the slots keeps the nesting. -/
lemma nesting_fill (rest : List (ℕ × Token)) :
    nesting path (fill layout path l ++ rest) = nesting path (l ++ rest) := by
  induction l generalizing path with
  | nil => rfl
  | cons p l ih =>
    rw [List.cons_append, nesting, ← ih, fill, List.cons_append, nesting, pathAfter_fillToken]

/-! ## Acceptance -/

/-- The header of the copy, as validation wants it. -/
lemma PatchHeader.valid (h : PatchHeader m size f) (hcopy : IsCopy n base m size) (hbase : base ≠ 0)
    (hfits : base + f .totalSize < 2 ^ 64) (hreserved : f .memRsvMapOff + 16 ≤ f .totalSize) :
    ValidHeader n base f where
  ne_zero := hbase
  fits := hfits
  words field := hcopy.hasBytes (h.words field) (by
    have hoff := field.offset_le
    have hle := h.header_le
    have htotal := h.total_le
    rw [length_beBytes]
    omega)
  lt := h.lt
  magic := h.magic
  total := h.header_le
  structs := h.structs.2
  strings := h.strings.2
  reserved := ⟨by omega, by omega⟩

/-- The structure block ends with the end token, is not nested too deep, and the end of the
reservation map lies in the blob. -/
def Acceptable (f : HeaderField → ℕ) (l : List (ℕ × Token)) (e : ℕ) : Prop :=
  f .memRsvMapOff + 16 ≤ f .totalSize ∧ e + 4 = f .structOff + f .sizeStructs ∧
    nesting [] (l ++ [(e, .finish)]) ≤ maxDepth

/-- The tokens of the copy. -/
lemma Effect.tokens_copy (h : Effect layout m m' f l e) (hf : PatchHeader m size f)
    (hcopy : IsCopy n base m' size) (hbase : 4 ∣ base) :
    Tokens (blobOf n base f) (base + f .structOff)
      (shift base (fill layout [] l ++ [(e, .finish)])) (base + (e + 4)) := by
  obtain ⟨-, hstrings, hstringsSize⟩ := hf.strings
  have htotal := hf.total_le
  exact hcopy.tokens hbase hf.structEnd_le (by omega)
    (Chain.concat (R := TokenAt _) h.filled h.finish')

/-- The tokens of the copy are balanced. -/
lemma Effect.balanced_copy (h : Effect layout m m' f l e) :
    Balanced [] (shift base (fill layout [] l ++ [(e, .finish)])) :=
  balanced_shift.mpr (balanced_fill (h.nested.balanced h.closed))

/-- Validation accepts the copy of a patched tree exactly when the tree is acceptable. -/
lemma Effect.accepted_iff (h : Effect layout m m' f l e) (hf : PatchHeader m size f)
    (hread : ∀ i < size, (m' i).isSome) (hcopy : IsCopy n base m' size) (hal : 4 ∣ base)
    (hle : base + size ≤ 2 ^ 64) :
    (validateHeader n base).result = .ok () ↔
      base ≠ 0 ∧ base + f .totalSize < 2 ^ 64 ∧ Acceptable f l e := by
  have hf' : PatchHeader m' size f := hf.congr h.header
  have hstart : 4 ∣ base + f .structOff := hal.add (Nat.dvd_of_mod_eq_zero hf.aligned)
  have htokens := h.tokens_copy hf hcopy hal
  have hnest : nesting [] (shift base (fill layout [] l ++ [(e, .finish)])) =
      nesting [] (l ++ [(e, .finish)]) := nesting_shift.trans (nesting_fill _)
  have hend : (blobOf n base f).structEnd = base + (f .structOff + f .sizeStructs) :=
    Nat.add_assoc _ _ _
  constructor
  · intro hok
    have htotal : fdtHeaderSize ≤ size := hf.header_le.trans hf.total_le
    unfold fdtHeaderSize at htotal
    obtain ⟨g, hv, hlist⟩ := tokens_of_validateHeader (by omega) (Run.eq_mk hok)
    -- the header that validation has read is the one of the buffer
    obtain rfl : g = f := by
      funext field
      have hbytes := hcopy.hasBytes (hf'.words field) (by
        have hoff := field.offset_le
        unfold fdtHeaderSize at hoff
        rw [length_beBytes]
        omega)
      have hlt := hv.lt field
      have hlt' := hf.lt field
      exact beBytes_injective (n := 4) (by omega) (by omega)
        ((hv.words field).unique hbytes (by rw [length_beBytes, length_beBytes]))
    obtain ⟨l', hl', hbal', hnest', -⟩ := hlist (fun i hlo hhi => by
      have hstruct := hf.structEnd_le
      obtain ⟨j, rfl⟩ := Nat.exists_eq_add_of_le (show base ≤ i by omega)
      rw [hcopy j (by omega)]
      exact hread j (by omega)) (.inl hstart)
    obtain ⟨rfl, hlast⟩ := Balanced.unique htokens hl' h.balanced_copy hbal'
    obtain ⟨hoff, hsize⟩ := hv.reserved
    refine ⟨hv.ne_zero, hv.fits, by omega, by omega, ?_⟩
    rw [← hnest]
    exact hnest'
  · rintro ⟨hbase, hfits, hreserved, hlast, hdeep⟩
    have hv := hf'.valid hcopy hbase hfits hreserved
    rw [hlast, ← hend] at htokens
    rw [validateHeader_of_tokens hv htokens h.balanced_copy (hnest.le.trans hdeep) (.inl hstart)]

/-- Where the patcher returns true, the parser accepts the patched copy, at a 64 KiB aligned address
in memory that is not the null address, exactly when the end token of the tree is the last word of
its structure block, at most sixteen nodes are open at the same time, and the end of the reservation
map lies in the blob. -/
theorem accepted_iff_acceptable (layout : GuestLayout) (bytes : List UInt8)
    (m' n : Memory) (base : ℕ) (hsize : layout.dtbSize = bytes.length)
    (hrun : run layout (fun i => bytes[i]?) = .ok (true, m')) (hbase : 2 ^ 16 ∣ base)
    (hle : base + bytes.length ≤ 2 ^ 64) (hcopy : IsCopy n base m' bytes.length) :
    ∃ f l e, PatchHeader (fun i => bytes[i]?) bytes.length f ∧
      Tokens ((headerBlocks f).blob fun i => bytes[i]?) (f .structOff) (l ++
      [(e, .finish)]) (e + 4) ∧ Balanced [] (l ++ [(e, .finish)]) ∧
      ((validateHeader n base).result = .ok () ↔
        base ≠ 0 ∧ base + f .totalSize < 2 ^ 64 ∧ Acceptable f l e) := by
  have hread : ∀ i < bytes.length, (bytes[i]?).isSome := fun i hi => by simp [hi]
  obtain ⟨ok, m'', hrun', -, hsome, htrue⟩ := run_cases (m := fun i => bytes[i]?) hsize hread
  rw [hrun] at hrun'
  obtain ⟨rfl, rfl⟩ := Prod.mk.inj (Except.ok.inj hrun')
  obtain ⟨f, l, e, hf, heffect, -⟩ := htrue rfl
  exact ⟨f, l, e, hf, Chain.concat (R := TokenAt _) heffect.tokens heffect.finish,
    heffect.nested.balanced heffect.closed,
    heffect.accepted_iff hf (fun i hi => hsome i (hread i hi)) hcopy
      ((by norm_num : 4 ∣ 2 ^ 16).trans hbase) hle⟩

/-- A copy of a buffer at an address, with nothing in front of it. -/
def copyAt (base : ℕ) (m : Memory) : Memory := fun a => if base ≤ a then m (a - base) else none

/-- It is a copy. -/
lemma isCopy_copyAt : IsCopy (copyAt base m) base m size := by
  intro i _
  rw [copyAt, if_pos (Nat.le_add_right _ _), Nat.add_sub_cancel_left]

/-- What the patcher leaves of a buffer. -/
def patched (layout : GuestLayout) (bytes : List UInt8) : Memory :=
  match run layout fun i => bytes[i]? with
  | .ok (_, m') => m'
  | .error _ => fun _ => none

/-- The run of the patcher that leaves it. -/
lemma run_patched {bytes : List UInt8}
    (h : (run layout fun i => bytes[i]?).map Prod.fst = .ok true) :
    run layout (fun i => bytes[i]?) = .ok (true, patched layout bytes) := by
  cases hrun : run layout fun i => bytes[i]? with
  | error e =>
    rw [hrun] at h
    cases h
  | ok r =>
    obtain ⟨ok, m'⟩ := r
    rw [hrun] at h
    obtain rfl : ok = true := Except.ok.inj h
    simp only [patched, hrun]

/-- The patcher accepts the guest tree. -/
lemma run_guestTree : run guestTreeLayout (fun i => guestTree[i]?) =
    .ok (true, patched guestTreeLayout guestTree) :=
  run_patched (by decide +kernel)

/-- The guest tree, patched and copied to 1 GiB. -/
theorem accepted_iff_acceptable_guestTree :
    ∃ m', run guestTreeLayout (fun i => guestTree[i]?) = .ok (true, m') ∧
      ∃ f l e, PatchHeader (fun i => guestTree[i]?) guestTree.length f ∧
        Balanced [] (l ++ [(e, .finish)]) ∧
        ((validateHeader (copyAt 0x40000000 m') 0x40000000).result = .ok () ↔
          0x40000000 ≠ 0 ∧ 0x40000000 + f .totalSize < 2 ^ 64 ∧ Acceptable f l e) := by
  obtain ⟨f, l, e, hf, -, hbal, hiff⟩ := accepted_iff_acceptable guestTreeLayout guestTree _
    (copyAt 0x40000000 _) 0x40000000 rfl run_guestTree (by norm_num) (by decide +kernel)
    isCopy_copyAt
  exact ⟨_, run_guestTree, f, l, e, hf, hbal, hiff⟩

/-- A guest tree with a NOP behind the end token, at the end of the structure block. -/
def paddedTree : List UInt8 :=
  blobBytes 0
    (beginNodeBytes [] ++ beginNodeBytes (ascii "memory") ++ propBytes 0 (List.replicate 16 0) ++
      endNodeBytes ++ beginNodeBytes (ascii "chosen") ++ propBytes 4 (List.replicate 8 0) ++
      propBytes 23 (List.replicate 8 0) ++ endNodeBytes ++ endNodeBytes ++ finishBytes ++
        beBytes 4 4)
    (ascii "reg" ++ [0] ++ ascii "linux,initrd-start" ++ [0] ++ ascii "linux,initrd-end" ++ [0])

/-- The patcher stops at the end token, wherever it is, and the parser panics on the tree that the
patcher has accepted. -/
theorem padded_tree_is_rejected :
    (run { guestTreeLayout with dtbSize := paddedTree.length }
        fun i => paddedTree[i]?).map Prod.fst = .ok true ∧
      (validateHeader (copyAt 0x40000000
        (patched { guestTreeLayout with dtbSize := paddedTree.length } paddedTree))
        0x40000000).result = .error (.panic "[ERROR][DTB] data follows structure end") := by
  constructor <;> decide +kernel

/-! ## Reading the values back -/

open PathProp

/-- A property after patching. -/
def fillProp (layout : GuestLayout) (p : PathProp) : PathProp :=
  { p with value := (slotOf p.path p.name).elim p.value (Slot.bytes layout) }

/-- The properties are those of the tokens, wherever they lie. -/
lemma propsOf_shift : propsOf path (shift base l) = propsOf path l := by
  induction l generalizing path with
  | nil => rfl
  | cons p l ih =>
    rw [propsOf, ← ih]
    rfl

/-- The properties of two stretches. -/
lemma propsOf_append (l' : List (ℕ × Token)) :
    propsOf path (l ++ l') = propsOf path l ++ propsOf (pathOf path l) l' := by
  induction l generalizing path with
  | nil => rfl
  | cons p l ih =>
    rw [List.cons_append, propsOf, propsOf, ih, List.append_assoc]
    rfl

/-- The properties after patching. -/
lemma propsOf_fill : propsOf path (fill layout path l) =
    (propsOf path l).map (fillProp layout) := by
  induction l generalizing path with
  | nil => rfl
  | cons p l ih =>
    obtain ⟨a, t⟩ := p
    rw [fill, propsOf, propsOf, pathAfter_fillToken, ih, List.map_append]
    cases t <;> rfl

/-- A property of the tree lies somewhere; if it fills a slot, it is one of the sites. -/
lemma exists_token_of_mem_propsOf {B : Blob} {p : PathProp} (h : Tokens B a l b)
    (hp : p ∈ propsOf path l) :
    ∃ c nameOff d, TokenAt B c (.prop nameOff p.name p.value) d ∧
      ∀ slot, slotOf p.path p.name = some slot → (c, slot) ∈ sitesOf path l := by
  induction h generalizing path with
  | nil => cases hp
  | @cons a b c t l ht _ ih =>
    rw [propsOf, List.mem_append] at hp
    rcases hp with hp | hp
    · cases t with
      | prop nameOff name value =>
        obtain rfl := List.mem_singleton.mp hp
        refine ⟨a, nameOff, b, ht, fun slot hslot => List.mem_append_left _ ?_⟩
        exact List.mem_map.mpr ⟨slot, Option.mem_toList.mpr hslot, rfl⟩
      | beginNode name => cases hp
      | endNode => cases hp
      | nop => cases hp
      | finish => cases hp
    · obtain ⟨c, nameOff, d, htoken, hsite⟩ := ih hp
      exact ⟨c, nameOff, d, htoken, fun slot hslot => List.mem_append_right _ (hsite slot hslot)⟩

/-- A site is a property of the tree. -/
lemma exists_prop_of_mem_sitesOf {slot : Slot} (h : (a, slot) ∈ sitesOf path l) :
    ∃ p ∈ propsOf path l, slotOf p.path p.name = some slot := by
  induction l generalizing path with
  | nil => cases h
  | cons q l ih =>
    obtain ⟨b, t⟩ := q
    rw [sitesOf, List.mem_append] at h
    rcases h with h | h
    · obtain ⟨slot', hslot, heq⟩ := List.mem_map.mp h
      obtain ⟨-, rfl⟩ := Prod.mk.inj heq
      rw [Option.mem_toList] at hslot
      cases t with
      | prop nameOff name value =>
        exact ⟨⟨path, name, value⟩, List.mem_append_left _ List.mem_cons_self, hslot⟩
      | beginNode name => cases hslot
      | endNode => cases hslot
      | nop => cases hslot
      | finish => cases hslot
    · obtain ⟨p, hp, hslot⟩ := ih h
      exact ⟨p, List.mem_append_right _ hp, hslot⟩

/-- Patching keeps the length of a property. -/
lemma Effect.length_fillProp (h : Effect layout m m' f l e) {p : PathProp} (hp : p ∈ propsOf [] l) :
    (fillProp layout p).value.length = p.value.length := by
  obtain ⟨a, nameOff, b, ht, hsite⟩ := exists_token_of_mem_propsOf h.tokens hp
  cases hslot : slotOf p.path p.name with
  | none => simp [fillProp, hslot]
  | some slot =>
    obtain ⟨value, hlen, -, node, nameOff', b', -, -, -, -, ht'⟩ := h.site a slot (hsite slot hslot)
    obtain ⟨heq, -⟩ := ht.unique ht'
    obtain ⟨-, -, rfl⟩ := Token.prop.inj heq
    simp [fillProp, hslot, Slot.length_bytes, hlen]

/-- The `reg` that is filled is one that `ParseMemoryMap` takes for the RAM. -/
lemma Effect.isMemoryReg (h : Effect layout m m' f l e) {p : PathProp} (hp : p ∈ propsOf [] l)
    (hslot : slotOf p.path p.name = some .memoryReg) : IsMemoryReg p := by
  obtain ⟨hlen, hnode, hname⟩ := of_slotOf_eq_some hslot
  have hsize := h.length_fillProp hp
  simp only [fillProp, hslot, Option.elim_some, Slot.length_bytes] at hsize
  obtain ⟨x, node, hpath⟩ := List.length_eq_two.mp hlen
  refine ⟨⟨hname, hsize.le⟩, node, by rw [hpath]; rfl, ?_⟩
  have hkind : kindOf node = .memory := by
    rw [hpath] at hnode
    exact hnode.symm
  unfold kindOf at hkind
  split at hkind
  case isTrue hmemory =>
    rcases hmemory with rfl | hprefix
    · exact List.prefix_rfl
    · exact (by decide : kMemory <+: ascii "memory@").trans hprefix
  case isFalse =>
    split at hkind
    · cases hkind
    · cases hkind

/-- A property of `/chosen` that `ParseMemoryMap` reads is filled. -/
lemma slotOf_of_isChosen {slot : Slot} {p : PathProp} (hnode : slot.node = .chosen)
    (h : IsChosen slot.name p) : slotOf p.path p.name = some slot := by
  obtain ⟨hname, hin, hlen, -⟩ := h
  rw [hname]
  refine slotOf_eq_some hlen ?_
  rw [hnode, nodeOf, show p.path[1]? = some kChosen from hin]
  decide

/-- A slot of `/chosen` is a property that `ParseMemoryMap` reads. -/
lemma Effect.isChosen (h : Effect layout m m' f l e) {slot : Slot} (hnode : slot.node = .chosen)
    {p : PathProp} (hp : p ∈ propsOf [] l) (hslot : slotOf p.path p.name = some slot) :
    IsChosen slot.name p := by
  obtain ⟨hlen, hkind, hname⟩ := of_slotOf_eq_some hslot
  have hsize := h.length_fillProp hp
  simp only [fillProp, hslot, Option.elim_some, Slot.length_bytes] at hsize
  obtain ⟨x, node, hpath⟩ := List.length_eq_two.mp hlen
  refine ⟨hname, ?_, hlen, .inr ?_⟩
  · rw [hnode, hpath] at hkind
    have hkind' : kindOf node = .chosen := hkind.symm
    rw [InNode, hpath]
    unfold kindOf at hkind'
    split at hkind'
    · cases hkind'
    · split at hkind'
      case isTrue hchosen => exact congrArg some hchosen
      case isFalse => cases hkind'
  · rw [← hsize]
    cases slot with
    | memoryReg => cases hnode
    | initrdStart => rfl
    | initrdEnd => rfl

/-- The `reg` of the RAM after patching. -/
lemma Effect.memoryReg_fill (h : Effect layout m m' f l e) :
    memoryReg ((propsOf [] l).map (fillProp layout)) =
      (memoryReg (propsOf [] l)).map (fillProp layout) := by
  rw [memoryReg, List.find?_map, memoryReg]
  congr 1
  refine List.find?_congr fun p hp => ?_
  rw [Function.comp_apply, decide_eq_decide, IsMemoryReg, IsReg, h.length_fillProp hp]
  rfl

/-- What `ParseMemoryMap` reads from `/chosen` after patching. -/
lemma Effect.chosenProp_fill (h : Effect layout m m' f l e) (slot : Slot)
    (hnode : slot.node = .chosen) :
    ∃ p, chosenProp slot.name ((propsOf [] l).map (fillProp layout)) = some p ∧
      p.value = slot.bytes layout := by
  have hiff (q : PathProp) (hq : q ∈ propsOf [] l) :
      IsChosen slot.name (fillProp layout q) ↔ IsChosen slot.name q := by
    rw [IsChosen, IsChosen, h.length_fillProp hq]
    rfl
  obtain ⟨a, hsite⟩ := h.complete slot
  obtain ⟨q, hq, hslot⟩ := exists_prop_of_mem_sitesOf hsite
  have hchosen := h.isChosen hnode hq hslot
  -- there is one, and each one is filled
  cases hfind : chosenProp slot.name ((propsOf [] l).map (fillProp layout)) with
  | none =>
    have hno := List.find?_eq_none.mp hfind (fillProp layout q)
      (List.mem_reverse.mpr (List.mem_map_of_mem hq))
    exact absurd (decide_eq_true ((hiff q hq).mpr hchosen)) hno
  | some p =>
    obtain ⟨q', hq', rfl⟩ := List.mem_map.mp (List.mem_reverse.mp (List.mem_of_find?_eq_some hfind))
    have hchosen' : IsChosen slot.name (fillProp layout q') := by
      simpa using List.find?_some hfind
    have hslot' := slotOf_of_isChosen hnode ((hiff q' hq').mp hchosen')
    exact ⟨_, rfl, by simp [fillProp, hslot']⟩

/-- A `reg` that `ParseMemoryMap` takes for the RAM gives the RAM of the guest exactly when it is
filled, or has held these values before. -/
lemma Effect.ram_fillProp (h : Effect layout m m' f l e) {p : PathProp} (hp : p ∈ propsOf [] l)
    (hreg : IsMemoryReg p) :
    (fillProp layout p).base = UInt64.ofNat guestIpaBase ∧
      (fillProp layout p).size = UInt64.ofNat guestRamSize ↔
        slotOf p.path p.name = some .memoryReg ∨
          p.value.take 16 = Slot.bytes layout .memoryReg := by
  have hlen : 16 ≤ (fillProp layout p).value.length := by
    rw [h.length_fillProp hp]
    exact hreg.1.2
  rw [base_size_eq_iff hlen (by decide) (by decide),
    show beBytes 8 guestIpaBase ++ beBytes 8 guestRamSize = Slot.bytes layout .memoryReg from rfl]
  cases hslot : slotOf p.path p.name with
  | none => simp [fillProp, hslot]
  | some slot =>
    obtain ⟨-, -, hname⟩ := of_slotOf_eq_some hslot
    obtain rfl : slot = .memoryReg := by
      rw [hreg.1.1] at hname
      cases slot with
      | memoryReg => rfl
      | initrdStart => exact absurd hname (by decide)
      | initrdEnd => exact absurd hname (by decide)
    refine iff_of_true ?_ (.inl rfl)
    simp only [fillProp, hslot, Option.elim_some]
    exact List.take_of_length_le (Slot.length_bytes layout .memoryReg).le

/-- A slot of `/chosen` holds one number. -/
lemma beNat_bytes {slot : Slot} {v : ℕ} (hvalues : slot.values layout = [v]) (hv : v < 2 ^ 64) :
    beNat (slot.bytes layout) = v := by
  rw [Slot.bytes, hvalues, List.flatMap_singleton, beNat_beBytes (by omega)]

/-- What `ParseMemoryMap` returns for the patched properties: the initial RAM disk of the layout,
and the RAM of the guest exactly when the first `reg` that it takes for the RAM is the one that has
been filled, or has held these values before. -/
lemma Effect.memoryMapOf_fill (h : Effect layout m m' f l e) (base total : ℕ)
    (hend : layout.initrdIpa + layout.initrdSize < 2 ^ 64)
    (hnone : layout.initrdSize = 0 → layout.initrdIpa = 0) :
    ∃ p map, memoryReg (propsOf [] l) = some p ∧
      memoryMapOf base total ((propsOf [] l).map (fillProp layout)) = .ok map ∧
      map.cpioArchiveBase = UInt64.ofNat layout.initrdIpa ∧
      map.cpioArchiveSize = UInt64.ofNat layout.initrdSize ∧
      (map.memBase = UInt64.ofNat guestIpaBase ∧ map.memSize = UInt64.ofNat guestRamSize ↔
        slotOf p.path p.name = some .memoryReg ∨
          p.value.take 16 = Slot.bytes layout .memoryReg) := by
  obtain ⟨a, hsite⟩ := h.complete .memoryReg
  obtain ⟨q, hq, hslot⟩ := exists_prop_of_mem_sitesOf hsite
  cases hfind : memoryReg (propsOf [] l) with
  | none =>
    have hno := List.find?_eq_none.mp hfind q hq
    exact absurd (decide_eq_true (h.isMemoryReg hq hslot)) hno
  | some p =>
    have hmem := List.mem_of_find?_eq_some hfind
    have hreg : IsMemoryReg p := by simpa using List.find?_some hfind
    have hfill : memoryReg ((propsOf [] l).map (fillProp layout)) = some (fillProp layout p) := by
      rw [h.memoryReg_fill, hfind]
      rfl
    obtain ⟨start, hstart, hstart_eq⟩ := h.chosenProp_fill .initrdStart rfl
    obtain ⟨stop, hstop, hstop_eq⟩ := h.chosenProp_fill .initrdEnd rfl
    have hstart_nat : beNat start.value = layout.initrdIpa := by
      rw [hstart_eq]
      exact beNat_bytes rfl (by omega)
    have hstop_nat : beNat stop.value = layout.initrdIpa + layout.initrdSize := by
      rw [hstop_eq, beNat_bytes rfl (add64_lt _ _), add64_of_lt hend]
    change chosenProp kInitrdStart _ = some start at hstart
    change chosenProp kInitrdEnd _ = some stop at hstop
    rw [memoryMapOf, parseEnd]
    simp only [stateOf, mapOf, hfill, hstart, hstop, Option.isSome_some,
      Option.elim_some, hstart_nat, hstop_nat, true_and, reduceCtorEq, if_false]
    by_cases hzero : layout.initrdSize = 0
    · rw [if_neg (by omega)]
      exact ⟨p, _, rfl, rfl, by rw [hnone hzero]; rfl, by rw [hzero]; rfl,
        h.ram_fillProp hmem hreg⟩
    · rw [if_pos (by omega)]
      exact ⟨p, _, rfl, rfl, rfl, by rw [Nat.add_sub_cancel_left],
        h.ram_fillProp hmem hreg⟩

/-- `ParseMemoryMap` on a copy that validation accepts reads the properties of the input, filled. -/
lemma Effect.parseMemoryMap_copy (h : Effect layout m m' f l e) (hf : PatchHeader m size f)
    (hread : ∀ i < size, (m' i).isSome) (hcopy : IsCopy n base m' size) (hal : 4 ∣ base)
    (hle : base + size ≤ 2 ^ 64) (haccept : (validateHeader n base).result = .ok ()) :
    (parseMemoryMap n base).result =
      memoryMapOf base (f .totalSize) ((propsOf [] l).map (fillProp layout)) := by
  obtain ⟨hne, hfits, hreserved, hlast, hdeep⟩ := (h.accepted_iff hf hread hcopy hal hle).mp haccept
  have hv := (hf.congr h.header).valid hcopy hne hfits hreserved
  have htokens := h.tokens_copy hf hcopy hal
  have hend : (blobOf n base f).structEnd = base + (f .structOff + f .sizeStructs) :=
    Nat.add_assoc _ _ _
  rw [hlast, ← hend] at htokens
  have hnest : nesting [] (shift base (fill layout [] l ++ [(e, .finish)])) ≤ maxDepth := by
    rw [nesting_shift, nesting_fill]
    exact hdeep
  have hstart : 4 ∣ base + f .structOff := hal.add (Nat.dvd_of_mod_eq_zero hf.aligned)
  rw [parseMemoryMap_eq hv htokens h.balanced_copy hnest (.inl hstart), propsOf_shift,
    propsOf_append, propsOf_fill, show propsOf _ [(e, .finish)] = [] from rfl, List.append_nil]

/-- Where the patcher returns true and the parser accepts the patched copy, `ParseMemoryMap` returns
a map with the initial RAM disk of the layout.  The map has the RAM of the guest exactly when the
first `reg` of at least sixteen bytes below a depth-1 node whose name begins with `memory` is the
one that has been filled, or holds these values already. -/
theorem rereads_ram_iff (layout : GuestLayout) (bytes : List UInt8) (m' n : Memory) (base : ℕ)
    (hsize : layout.dtbSize = bytes.length)
    (hinitrd : layout.initrdIpa + layout.initrdSize < 2 ^ 64)
    (hnone : layout.initrdSize = 0 → layout.initrdIpa = 0)
    (hrun : run layout (fun i => bytes[i]?) = .ok (true, m')) (hbase : 4 ∣ base)
    (hle : base + bytes.length ≤ 2 ^ 64) (hcopy : IsCopy n base m' bytes.length)
    (haccept : (validateHeader n base).result = .ok ()) :
    ∃ f l e p map, PatchHeader (fun i => bytes[i]?) bytes.length f ∧
      Tokens ((headerBlocks f).blob fun i => bytes[i]?) (f .structOff) (l ++
      [(e, .finish)]) (e + 4) ∧
      Balanced [] (l ++ [(e, .finish)]) ∧ memoryReg (propsOf [] l) = some p ∧
      (parseMemoryMap n base).result = .ok map ∧
      map.cpioArchiveBase = UInt64.ofNat layout.initrdIpa ∧
      map.cpioArchiveSize = UInt64.ofNat layout.initrdSize ∧
      (map.memBase = UInt64.ofNat guestIpaBase ∧ map.memSize = UInt64.ofNat guestRamSize ↔
        slotOf p.path p.name = some .memoryReg ∨
          p.value.take 16 = Slot.bytes layout .memoryReg) := by
  have hread : ∀ i < bytes.length, (bytes[i]?).isSome := fun i hi => by simp [hi]
  obtain ⟨ok, m'', hrun', -, hsome, htrue⟩ := run_cases (m := fun i => bytes[i]?) hsize hread
  rw [hrun] at hrun'
  obtain ⟨rfl, rfl⟩ := Prod.mk.inj (Except.ok.inj hrun')
  obtain ⟨f, l, e, hf, heffect, -⟩ := htrue rfl
  have hparse := heffect.parseMemoryMap_copy hf (fun i hi => hsome i (hread i hi)) hcopy hbase hle
    haccept
  obtain ⟨p, map, hfirst, hmap, hmapBase, hmapSize, hram⟩ :=
    heffect.memoryMapOf_fill base (f .totalSize) hinitrd hnone
  exact ⟨f, l, e, p, map, hf, Chain.concat (R := TokenAt _) heffect.tokens heffect.finish,
    heffect.nested.balanced heffect.closed, hfirst, by rw [hparse, hmap], hmapBase, hmapSize, hram⟩

/-- The guest tree, patched and copied to 1 GiB. -/
theorem rereads_ram_iff_guestTree :
    ∃ m' map, run guestTreeLayout (fun i => guestTree[i]?) = .ok (true, m') ∧
      (parseMemoryMap (copyAt 0x40000000 m') 0x40000000).result = .ok map ∧
      map.cpioArchiveBase = UInt64.ofNat guestTreeLayout.initrdIpa ∧
      map.cpioArchiveSize = UInt64.ofNat guestTreeLayout.initrdSize := by
  have haccept : (validateHeader (copyAt 0x40000000 (patched guestTreeLayout guestTree))
      0x40000000).result = .ok () := by
    decide +kernel
  obtain ⟨-, -, -, -, map, -, -, -, -, hparse, hbase, hsize, -⟩ := rereads_ram_iff guestTreeLayout
    guestTree _ (copyAt 0x40000000 _) 0x40000000 rfl (by decide) (by decide) run_guestTree
    (by norm_num) (by decide +kernel) isCopy_copyAt haccept
  exact ⟨_, map, run_guestTree, hparse, hbase, hsize⟩

/-- A guest tree with a memory controller in front of its memory. -/
def controllerTree : List UInt8 :=
  blobBytes 0
    (beginNodeBytes [] ++ beginNodeBytes (ascii "memory-controller") ++
      propBytes 0 (List.replicate 15 0 ++ [1]) ++ endNodeBytes ++ beginNodeBytes (ascii "memory") ++
      propBytes 0 (List.replicate 16 0) ++ endNodeBytes ++ beginNodeBytes (ascii "chosen") ++
      propBytes 4 (List.replicate 8 0) ++ propBytes 23 (List.replicate 8 0) ++ endNodeBytes ++
      endNodeBytes ++ finishBytes)
    (ascii "reg" ++ [0] ++ ascii "linux,initrd-start" ++ [0] ++ ascii "linux,initrd-end" ++ [0])

/-- The patcher fills the `reg` of `memory`, and the parser takes that of `memory-controller`. -/
theorem controller_is_read_as_ram :
    (run { guestTreeLayout with dtbSize := controllerTree.length }
        fun i => controllerTree[i]?).map Prod.fst = .ok true ∧
      ((parseMemoryMap (copyAt 0x40000000
        (patched { guestTreeLayout with dtbSize := controllerTree.length } controllerTree))
        0x40000000).result.map fun map => (map.memBase, map.memSize)) = .ok (0, 1) := by
  constructor <;> decide +kernel

end BootLoader

end HyperBerry
