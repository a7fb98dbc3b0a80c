import HyperBerry.Mmu.Stage2Tree
import HyperBerry.Lib.Overlay

/-!
# Stage-2 tables refine a page map

The mapping operations of the guest MMU, specified against the page map that the tables implement.
Addresses are 64 bits wide in the code, and the walk only looks at the bits that index a table: an
operation affects the 40-bit addresses that agree with its address there (`MapCall.target`).

For calls with addresses inside the 40-bit space, the hardware translates every address as the last
call that covers it says (`hwWalk_eq_last_call`).
-/

namespace HyperBerry

namespace GuestMmu

section Walk

variable {root : ℕ} {st : Tables} {L : Layout} {m : ℕ → Option Target}

/-- The level 2 entry that covers an address, numbered over all level 2 tables. -/
def entryOf (ipa : ℕ) : ℕ := ipa / 2 ^ 21 % 2 ^ 19

/-- The page number of an address in the 40-bit space. -/
def pageOf (ipa : ℕ) : ℕ := ipa / 2 ^ 12 % 2 ^ 28

lemma l1Index_eq (ipa : ℕ) : ipa >>> 30 &&& 0x3FF = entryOf ipa / 512 := by
  have h : ipa >>> 30 &&& 0x3FF = ipa >>> 30 % 2 ^ 10 := Nat.and_two_pow_sub_one_eq_mod _ 10
  rw [h, Nat.shiftRight_eq_div_pow, entryOf]
  omega

lemma l2Index_eq (ipa : ℕ) : l2Index ipa = entryOf ipa % 512 := by
  have h : ipa >>> 21 &&& 0x1FF = ipa >>> 21 % 2 ^ 9 := Nat.and_two_pow_sub_one_eq_mod _ 9
  rw [l2Index, h, Nat.shiftRight_eq_div_pow, entryOf]
  omega

lemma l3Index_eq (ipa : ℕ) : l3Index ipa = pageOf ipa % 512 := by
  have h : ipa >>> 12 &&& 0x1FF = ipa >>> 12 % 2 ^ 9 := Nat.and_two_pow_sub_one_eq_mod _ 9
  rw [l3Index, h, Nat.shiftRight_eq_div_pow, pageOf]
  omega

lemma pageOf_div (ipa : ℕ) : pageOf ipa / 512 = entryOf ipa := by
  unfold pageOf entryOf
  omega

/-- The walk of the guest MMU reads one level 1 entry. -/
lemma walk_eq (root ipa : ℕ) (st : Tables) :
    (stage2Table root).walk ipa true st =
      let slot := root + 8 * (entryOf ipa / 512)
      if pteIsValid (st.mem slot) then
        some (st, some (pteNextTable (st.mem slot) + 8 * (entryOf ipa % 512)))
      else st.allocTable.bind fun r =>
        let st := r.1.store slot (r.2 ||| pteValid ||| pteTable)
        some (st, some (pteNextTable (st.mem slot) + 8 * (entryOf ipa % 512))) := by
  rw [← l1Index_eq, ← l2Index_eq]
  rfl

/-- The walk returns the slot of the level 2 entry, with at most one new table. -/
lemma Represents.walk (h : Represents root st L m) (ipa : ℕ) :
    ((stage2Table root).walk ipa true st = none ∧ st.supply = []) ∨
    ∃ st' L' t, (stage2Table root).walk ipa true st =
        some (st', some (t + 8 * (entryOf ipa % 512))) ∧
      Represents root st' L' m ∧ L'.level2 (entryOf ipa / 512) = some t ∧
      st.supply.length ≤ st'.supply.length + 1 := by
  have hi : entryOf ipa / 512 < 1024 := by
    unfold entryOf
    omega
  have hslot : root + 8 * (entryOf ipa / 512) =
      root + pageSize * (entryOf ipa / 512 / 512) + 8 * (entryOf ipa / 512 % 512) := by
    unfold pageSize
    omega
  have hentry := h.entry1 _ hi
  rw [walk_eq]
  simp only [hslot]
  cases h2 : L.level2 (entryOf ipa / 512) with
  | some t =>
    right
    have ht := (h.valid.level2 _ _ h2).1
    rw [h2] at hentry
    have hvalid : pteIsValid (tableEntry (some t)) = true := by
      have := tableEntry_mod_four ht
      rw [pteIsValid_iff]
      omega
    refine ⟨st, L, t, ?_, h, h2, Nat.le_succ _⟩
    rw [hentry, if_pos hvalid, pteNextTable_eq, nextTable_tableEntry ht]
  | none =>
    rw [h2] at hentry
    have hvalid : ¬ pteIsValid (tableEntry none) = true := by decide
    rw [hentry, if_neg hvalid]
    cases hs : st.supply with
    | nil =>
      left
      simp [Tables.allocTable, hs]
    | cons u supply =>
      right
      have hu := (h.valid.fresh u (by rw [hs]; exact List.mem_cons_self)).1
      refine ⟨_, _, u, ?_, h.addLevel2 hi h2 hs, by simp [Layout.addLevel2], by
        simp [Tables.store, Tables.clear]⟩
      simp only [Tables.allocTable, hs, Option.bind_some, tableDescriptor_eq hu.dvd]
      congr 3
      rw [pteNextTable_eq, Tables.store]
      simp only [Function.update_self, nextTable_tableEntry hu]

/-- Splitting a level 2 entry keeps the page map. -/
lemma Represents.splitL2 (h : Represents root st L m) {j t : ℕ} (hj : j < 2 ^ 19)
    (ht : L.level2 (j / 512) = some t) (hnone : L.level3 j = none) :
    (splitL2 st (t + 8 * (j % 512)) = none ∧ st.supply = []) ∨
    ∃ st' u, splitL2 st (t + 8 * (j % 512)) = some st' ∧
      Represents root st' (L.addLevel3 j u) m ∧
      st.supply.length = st'.supply.length + 1 := by
  cases hs : st.supply with
  | nil =>
    left
    simp [GuestMmu.splitL2, Tables.allocTable, hs]
  | cons u supply =>
    right
    have hvalid := h.valid
    rw [hs] at hvalid
    obtain ⟨htp, hto⟩ := hvalid.level2 _ _ ht
    have hu := (hvalid.fresh u List.mem_cons_self).1
    have htu : t ≠ u := hvalid.ne_of_owner hto
    have hk : j % 512 < 512 := Nat.mod_lt _ (by norm_num)
    have hslot : st.mem (t + 8 * (j % 512)) = blockEntry (m (512 * j)) :=
      h.entry2_block j hj t ht hnone
    have hpages : ∀ k < 512, m (512 * j + k) =
        (m (512 * j)).map fun τ => ⟨τ.page + k, τ.device⟩ := by
      intro k hk
      have hdiv : (512 * j + k) / 512 = j := by omega
      have hmod : (512 * j + k) % 512 = k := by omega
      have := h.block (512 * j + k) (by omega) (by rw [hdiv]; exact hnone)
      rwa [hdiv, hmod] at this
    simp only [GuestMmu.splitL2, Tables.allocTable, hs, Option.bind_eq_bind, Option.bind_some,
      hslot, Option.pure_def, tableDescriptor_eq hu.dvd]
    cases hm : m (512 * j) with
    | none =>
      have hblock : pteIsBlock (blockEntry none) = false := rfl
      simp only [hblock, Bool.false_eq_true, if_false]
      refine ⟨_, u, rfl, h.addLevel3 hj ht hnone hs rfl ?_ ?_ ?_, rfl⟩
      · intro k hk'
        rw [hpages k hk', hm, store_mem_of_ne htp.dvd hu.dvd hk hk' htu.symm,
          clear_mem hu.dvd hu.dvd hk', if_pos rfl]
        rfl
      · rw [store_mem htp.dvd htp.dvd hk hk, if_pos ⟨rfl, rfl⟩]
      · intro t' k ht' hk' hne hor
        rw [store_mem htp.dvd ht' hk hk', if_neg (by tauto), clear_mem hu.dvd ht' hk', if_neg hne]
    | some τ =>
      have hblock : pteIsBlock (blockEntry (some τ)) = true :=
        (pteIsBlock_iff _).mpr (blockEntry_mod_four τ)
      have hsize : size2MB / size4KB = 512 := rfl
      have hτ := h.page_lt _ _ hm
      have hdvd := h.block_dvd j hj hnone τ hm
      simp only [hblock, if_true, hsize]
      refine ⟨_, u, rfl, h.addLevel3 hj ht hnone hs ?_ ?_ ?_ ?_, ?_⟩
      · rw [store_supply, store_supply, fill_supply]
        rfl
      · intro k hk'
        rw [hpages k hk', hm, store_mem_of_ne htp.dvd hu.dvd hk hk' htu.symm,
          store_mem_of_ne htp.dvd hu.dvd hk hk' htu.symm, fill_mem hu.dvd hu.dvd hk' 512 le_rfl,
          if_pos ⟨rfl, hk'⟩, splitEntry_eq hτ hdvd hk', Option.map_some]
      · rw [store_mem htp.dvd htp.dvd hk hk, if_pos ⟨rfl, rfl⟩]
      · intro t' k ht' hk' hne hor
        have hslot' : ¬ (t' = t ∧ k = j % 512) := by tauto
        rw [store_mem htp.dvd ht' hk hk', if_neg hslot', store_mem htp.dvd ht' hk hk',
          if_neg hslot', fill_mem hu.dvd ht' hk' 512 le_rfl, if_neg (fun hcon => hne hcon.1),
          clear_mem hu.dvd ht' hk', if_neg hne]
      · rw [store_supply, store_supply, fill_supply]
        rfl

/-- The walk to level 3 returns the slot of the page entry, with at most two new tables. -/
lemma Represents.walkL3 (h : Represents root st L m) (ipa : ℕ) :
    (walkL3 (stage2Table root) ipa st = none ∧ st.supply.length < 2) ∨
    ∃ st' L' u, walkL3 (stage2Table root) ipa st = some (st', some (u + 8 * (pageOf ipa % 512))) ∧
      Represents root st' L' m ∧ L'.level3 (pageOf ipa / 512) = some u ∧
      st.supply.length ≤ st'.supply.length + 2 := by
  have hj : entryOf ipa < 2 ^ 19 := Nat.mod_lt _ (by norm_num)
  rw [pageOf_div, ← l3Index_eq]
  rcases h.walk ipa with ⟨hrun, hs⟩ | ⟨st₁, L₁, t, hrun, h₁, ht, hlen⟩
  · left
    simp [GuestMmu.walkL3, hrun, hs]
  · simp only [GuestMmu.walkL3, hrun, Option.bind_eq_bind, Option.bind_some, Option.pure_def]
    cases h3 : L₁.level3 (entryOf ipa) with
    | some u =>
      right
      have hu := (h₁.valid.level3 _ _ h3).1
      have hentry := h₁.entry2_table _ hj t u ht h3
      have htable : pteIsTable (tableEntry (some u)) = true :=
        (pteIsTable_iff _).mpr (tableEntry_mod_four hu)
      refine ⟨st₁, L₁, u, ?_, h₁, h3, by omega⟩
      simp only [hentry, htable, if_true, pteNextTable_eq, nextTable_tableEntry hu]
    | none =>
      have hentry := h₁.entry2_block _ hj t ht h3
      have htable : pteIsTable (blockEntry (m (512 * entryOf ipa))) = false := by
        cases hm : m (512 * entryOf ipa) with
        | none => rfl
        | some τ =>
          rw [Bool.eq_false_iff, Ne, pteIsTable_iff, blockEntry_mod_four]
          norm_num
      simp only [hentry, htable, Bool.false_eq_true, if_false]
      rcases h₁.splitL2 hj ht h3 with ⟨hsplit, hs⟩ | ⟨st₂, u, hsplit, h₂, hlen₂⟩
      · left
        rw [hs] at hlen
        refine ⟨by simp only [hsplit, Option.bind_none], ?_⟩
        simp only [List.length_nil] at hlen
        omega
      · right
        have h3' : (L₁.addLevel3 (entryOf ipa) u).level3 (entryOf ipa) = some u := by
          simp [Layout.addLevel3]
        have hu := (h₂.valid.level3 _ _ h3').1
        have hentry₂ := h₂.entry2_table _ hj t u ht h3'
        have htable₂ : pteIsTable (tableEntry (some u)) = true :=
          (pteIsTable_iff _).mpr (tableEntry_mod_four hu)
        refine ⟨st₂, _, u, ?_, h₂, h3', by omega⟩
        simp only [hsplit, Option.bind_some, hentry₂, htable₂, if_true, pteNextTable_eq,
          nextTable_tableEntry hu]

end Walk

/-! ## Calls -/

/-- A call of a mapping operation. -/
inductive MapCall where
  /-- `MapBlock`. -/
  | block (ipa pa : ℕ) (isDevice : Bool)
  /-- `MapPage`. -/
  | page (ipa pa : ℕ) (isDevice : Bool)

namespace MapCall

/-- The effect of a call on the tables. -/
def run (root : ℕ) : MapCall → Tables → Option Tables
  | block ipa pa isDevice, st => mapBlock (stage2Table root) ipa pa isDevice st
  | page ipa pa isDevice, st => mapPage (stage2Table root) ipa pa isDevice st

/-- What a call maps a page number of the 40-bit space to, if it affects it. -/
def target : MapCall → ℕ → Option Target
  | block ipa pa isDevice, p =>
    if p / 512 = entryOf ipa then some ⟨pa / 2 ^ 12 % 2 ^ 36 + p % 512, isDevice⟩ else none
  | page ipa pa isDevice, p =>
    if p = pageOf ipa then some ⟨pa / 2 ^ 12 % 2 ^ 36, isDevice⟩ else none

/-- Blocks are mapped to blocks. -/
def Aligned : MapCall → Prop
  | block _ pa _ => size2MB ∣ pa
  | page _ _ _ => True

end MapCall

/-- A sequence of calls. -/
def runCalls (root : ℕ) (calls : List MapCall) (st : Tables) : Option Tables :=
  calls.foldlM (fun st c => c.run root st) st

/-- The page map after a sequence of calls. -/
def callsMap (calls : List MapCall) (m : ℕ → Option Target) : ℕ → Option Target :=
  calls.foldl (fun m c => overlay m c.target) m

section Calls

variable {root : ℕ} {st : Tables} {L : Layout} {m : ℕ → Option Target}

/-- One call: the tables implement the page map with the call laid over it. -/
lemma Represents.call (h : Represents root st L m) {c : MapCall} (hc : c.Aligned) :
    (c.run root st = none ∧ st.supply.length < 2) ∨
    ∃ st' L', c.run root st = some st' ∧ Represents root st' L' (overlay m c.target) ∧
      st.supply.length ≤ st'.supply.length + 2 := by
  cases c with
  | block ipa pa isDevice =>
    have hj : entryOf ipa < 2 ^ 19 := Nat.mod_lt _ (by norm_num)
    have hdvd : 512 ∣ pa / 2 ^ 12 % 2 ^ 36 := by
      obtain ⟨k, rfl⟩ : size2MB ∣ pa := hc
      unfold size2MB
      omega
    have hmap : overlay m (MapCall.block ipa pa isDevice).target =
        setBlockMap m (entryOf ipa) ⟨pa / 2 ^ 12 % 2 ^ 36, isDevice⟩ := by
      funext p
      rw [overlay, MapCall.target, setBlockMap]
      split <;> rfl
    rw [hmap]
    rcases h.walk ipa with ⟨hrun, hs⟩ | ⟨st₁, L₁, t, hrun, h₁, ht, hlen⟩
    · left
      simp [MapCall.run, mapBlock, hrun, hs]
    · right
      refine ⟨_, _, ?_, h₁.setBlock hj ht (Nat.mod_lt _ (by norm_num)) hdvd, ?_⟩
      · simp only [MapCall.run, mapBlock, hrun, Option.bind_eq_bind, Option.bind_some,
          Option.pure_def, buildStage2BlockDescriptor_eq]
      · rw [store_supply]
        omega
  | page ipa pa isDevice =>
    have hp : pageOf ipa < 2 ^ 28 := Nat.mod_lt _ (by norm_num)
    have hmap : overlay m (MapCall.page ipa pa isDevice).target =
        Function.update m (pageOf ipa) (some ⟨pa / 2 ^ 12 % 2 ^ 36, isDevice⟩) := by
      funext p
      rw [overlay, MapCall.target, Function.update_apply]
      split <;> rfl
    rw [hmap]
    rcases h.walkL3 ipa with ⟨hrun, hs⟩ | ⟨st₁, L₁, u, hrun, h₁, hu, hlen⟩
    · left
      exact ⟨by simp [MapCall.run, mapPage, hrun], hs⟩
    · right
      refine ⟨_, _, ?_, h₁.setPage hp hu (Nat.mod_lt _ (by norm_num)), hlen⟩
      simp only [MapCall.run, mapPage, hrun, Option.bind_eq_bind, Option.bind_some,
        Option.pure_def, buildStage2PageDescriptor_eq]

/-- A sequence of calls: the tables implement the page map with the calls laid over it, and two
pages a call are enough. -/
lemma Represents.runCalls : ∀ (calls : List MapCall) {st : Tables} {L : Layout}
    {m : ℕ → Option Target}, Represents root st L m → (∀ c ∈ calls, c.Aligned) →
    (runCalls root calls st = none ∧ st.supply.length < 2 * calls.length) ∨
    ∃ st' L', runCalls root calls st = some st' ∧ Represents root st' L' (callsMap calls m) := by
  intro calls
  induction calls with
  | nil =>
    intro st L m h _
    exact Or.inr ⟨st, L, rfl, h⟩
  | cons c calls ih =>
    intro st L m h hal
    have hc := hal c List.mem_cons_self
    have hrest : ∀ c ∈ calls, c.Aligned := fun c' hc' => hal c' (List.mem_cons_of_mem _ hc')
    simp only [GuestMmu.runCalls, List.foldlM_cons, List.length_cons]
    rcases h.call hc with ⟨hrun, hlen⟩ | ⟨st₁, L₁, hrun, h₁, hlen⟩
    · left
      exact ⟨by rw [hrun]; rfl, by omega⟩
    · rcases ih h₁ hrest with ⟨hrun', hlen'⟩ | ⟨st₂, L₂, hrun', h₂⟩
      · left
        exact ⟨by rw [hrun]; exact hrun', by omega⟩
      · exact Or.inr ⟨st₂, L₂, by rw [hrun]; exact hrun', h₂⟩

/-- A zeroed root, and a supply of pages that are not part of it. -/
structure FreshRoot (root : ℕ) (st : Tables) : Prop where
  /-- The root is page-aligned. -/
  root_dvd : pageSize ∣ root
  /-- The two pages of the root are zero. -/
  zero : ∀ i < 1024, st.mem (root + 8 * i) = 0
  /-- `AllocTable` returns pages outside the root. -/
  page : ∀ p ∈ st.supply, IsPage p ∧ p ≠ root ∧ p ≠ root + pageSize
  /-- `AllocTable` returns no page twice. -/
  nodup : st.supply.Nodup

/-- The layout of an empty root. -/
def rootLayout (root : ℕ) : Layout where
  owner a := if a = root then some (.root 0) else if a = root + pageSize then some (.root 1)
    else none
  level2 _ := none
  level3 _ := none

/-- A zeroed root maps nothing. -/
lemma FreshRoot.represents (h : FreshRoot root st) :
    Represents root st (rootLayout root) fun _ => none where
  valid :=
    { root_dvd := h.root_dvd
      owner_root := by
        intro k hk
        interval_cases k
        · simp [rootLayout]
        · simp [rootLayout, pageSize]
      level2 := by simp [rootLayout]
      level3 := by simp [rootLayout]
      fresh := by
        intro p hp
        obtain ⟨hpage, hne, hne'⟩ := h.page p hp
        exact ⟨hpage, by simp [rootLayout, hne, hne']⟩
      nodup := h.nodup }
  entry1 i hi := by
    have hslot : root + pageSize * (i / 512) + 8 * (i % 512) = root + 8 * i := by
      unfold pageSize
      omega
    rw [hslot, h.zero i hi]
    rfl
  entry2_table := by simp [rootLayout]
  entry2_block := by simp [rootLayout]
  entry3 := by simp [rootLayout]
  empty _ _ _ := ⟨rfl, rfl⟩
  block _ _ _ := rfl
  block_dvd := by simp
  page_lt := by simp

/-- What the hardware does after a sequence of calls. -/
lemma FreshRoot.hwWalk_eq (h : FreshRoot root st) {calls : List MapCall}
    (hal : ∀ c ∈ calls, c.Aligned) {st' : Tables}
    (hrun : GuestMmu.runCalls root calls st = some st') {ipa : ℕ} (hipa : ipa < 2 ^ 40) :
    hwWalk st'.mem root ipa =
      (calls.reverse.findSome? fun c => c.target (ipa / pageSize)).map fun τ =>
        ⟨τ.page * pageSize + ipa % pageSize, stage2Attributes τ.device⟩ := by
  rcases h.represents.runCalls calls hal with ⟨hnone, -⟩ | ⟨st'', L', hsome, h'⟩
  · rw [hrun] at hnone
    exact absurd hnone (by simp)
  · have hst : st'' = st' := Option.some.inj (hsome.symm.trans hrun)
    subst hst
    rw [h'.hwWalk_eq hipa, callsMap, foldl_overlay, Option.or_none]

end Calls

/-! ## Calls inside the 40-bit space -/

namespace MapCall

/-- Addresses are aligned to the size that is mapped, and inside the input and output ranges. -/
def WellFormed : MapCall → Prop
  | block ipa pa _ => size2MB ∣ ipa ∧ size2MB ∣ pa ∧ ipa < 2 ^ 40 ∧ pa < 2 ^ 48
  | page ipa pa _ => size4KB ∣ ipa ∧ size4KB ∣ pa ∧ ipa < 2 ^ 40 ∧ pa < 2 ^ 48

/-- The call maps the address. -/
def covers : MapCall → ℕ → Bool
  | block base _ _, ipa => base ≤ ipa ∧ ipa < base + size2MB
  | page base _ _, ipa => base ≤ ipa ∧ ipa < base + size4KB

/-- What the call maps a covered address to. -/
def translate : MapCall → ℕ → Translation
  | block base pa isDevice, ipa => ⟨pa + (ipa - base), stage2Attributes isDevice⟩
  | page base pa isDevice, ipa => ⟨pa + (ipa - base), stage2Attributes isDevice⟩

lemma WellFormed.aligned {c : MapCall} (h : c.WellFormed) : c.Aligned := by
  cases c with
  | block => exact h.2.1
  | page => trivial

/-- For a well-formed call, the page target of an address is what the call maps it to. -/
lemma WellFormed.map_target {c : MapCall} (h : c.WellFormed) {ipa : ℕ} (hipa : ipa < 2 ^ 40) :
    ((c.target (ipa / pageSize)).map fun τ => Translation.mk (τ.page * pageSize + ipa % pageSize)
      (stage2Attributes τ.device)) = if c.covers ipa then some (c.translate ipa) else none := by
  cases c with
  | block base pa isDevice =>
    obtain ⟨⟨a, rfl⟩, ⟨b, rfl⟩, hbase, hpa⟩ := h
    have hcovers : ipa / pageSize / 512 = entryOf (size2MB * a) ↔
        size2MB * a ≤ ipa ∧ ipa < size2MB * a + size2MB := by
      unfold entryOf size2MB pageSize at *
      omega
    simp only [target, covers, translate, hcovers, decide_eq_true_eq]
    split
    case isTrue hin =>
      rw [Option.map_some, Option.some.injEq, Translation.mk.injEq]
      refine ⟨?_, rfl⟩
      unfold size2MB pageSize at *
      simp only
      omega
    case isFalse => rfl
  | page base pa isDevice =>
    obtain ⟨⟨a, rfl⟩, ⟨b, rfl⟩, hbase, hpa⟩ := h
    have hcovers : ipa / pageSize = pageOf (size4KB * a) ↔
        size4KB * a ≤ ipa ∧ ipa < size4KB * a + size4KB := by
      unfold pageOf size4KB pageSize at *
      omega
    simp only [target, covers, translate, hcovers, decide_eq_true_eq]
    split
    case isTrue hin =>
      rw [Option.map_some, Option.some.injEq, Translation.mk.injEq]
      refine ⟨?_, rfl⟩
      unfold size4KB pageSize at *
      simp only
      omega
    case isFalse => rfl

/-- The last target of an address is what the last covering call maps it to. -/
lemma map_findSome_target {ipa : ℕ} (hipa : ipa < 2 ^ 40) {calls : List MapCall}
    (h : ∀ c ∈ calls, c.WellFormed) :
    ((calls.findSome? fun c => c.target (ipa / pageSize)).map fun τ =>
      Translation.mk (τ.page * pageSize + ipa % pageSize) (stage2Attributes τ.device)) =
      (calls.find? fun c => c.covers ipa).map fun c => c.translate ipa := by
  induction calls with
  | nil => rfl
  | cons c calls ih =>
    have hc := (h c List.mem_cons_self).map_target hipa
    have hrest := ih fun c' hc' => h c' (List.mem_cons_of_mem _ hc')
    rw [List.findSome?_cons, List.find?_cons]
    cases ht : c.target (ipa / pageSize) with
    | some τ =>
      rw [ht, Option.map_some] at hc
      cases hcov : c.covers ipa with
      | true =>
        rw [hcov, if_pos rfl] at hc
        rw [Option.map_some, hc, Option.map_some]
      | false =>
        rw [hcov] at hc
        exact absurd hc (by simp)
    | none =>
      rw [ht, Option.map_none] at hc
      cases hcov : c.covers ipa with
      | true =>
        rw [hcov, if_pos rfl] at hc
        exact absurd hc (by simp)
      | false => exact hrest

end MapCall

section WellFormed

variable {root : ℕ} {st : Tables}

/-- The hardware translates every 40-bit address as the last call that covers it says, and faults
where no call does; a further call leaves all addresses that it does not cover alone.  With two
pages a call in supply, every call returns. -/
theorem hwWalk_eq_last_call (h : FreshRoot root st) {calls : List MapCall}
    (hcalls : ∀ c ∈ calls, c.WellFormed) :
    (2 * calls.length ≤ st.supply.length → (runCalls root calls st).isSome) ∧
    ∀ st', runCalls root calls st = some st' →
      (∀ ipa < 2 ^ 40, hwWalk st'.mem root ipa =
        (calls.reverse.find? fun c => c.covers ipa).map fun c => c.translate ipa) ∧
      (∀ (c : MapCall) st'', c.WellFormed → c.run root st' = some st'' → ∀ ipa < 2 ^ 40,
        c.covers ipa = false → hwWalk st''.mem root ipa = hwWalk st'.mem root ipa) := by
  have hal : ∀ c ∈ calls, c.Aligned := fun c hc => (hcalls c hc).aligned
  have hlast : ∀ calls : List MapCall, (∀ c ∈ calls, c.WellFormed) → ∀ st',
      runCalls root calls st = some st' → ∀ ipa < 2 ^ 40, hwWalk st'.mem root ipa =
        (calls.reverse.find? fun c => c.covers ipa).map fun c => c.translate ipa := by
    intro calls hcalls st' hrun ipa hipa
    rw [h.hwWalk_eq (fun c hc => (hcalls c hc).aligned) hrun hipa]
    exact MapCall.map_findSome_target hipa fun c hc => hcalls c (List.mem_reverse.mp hc)
  refine ⟨fun hlen => ?_, fun st' hrun => ⟨hlast calls hcalls st' hrun, ?_⟩⟩
  · rcases h.represents.runCalls calls hal with ⟨-, hlt⟩ | ⟨st', L', hsome, -⟩
    · omega
    · rw [hsome, Option.isSome_some]
  · -- a further call is the last one of a longer sequence
    intro c st'' hc hrun' ipa hipa hcov
    have hcalls' : ∀ c' ∈ calls ++ [c], c'.WellFormed := by
      intro c' hc'
      rcases List.mem_append.mp hc' with hmem | hmem
      · exact hcalls c' hmem
      · exact List.mem_singleton.mp hmem ▸ hc
    have hrun'' : runCalls root (calls ++ [c]) st = some st'' := by
      have hrun₀ : calls.foldlM (fun st c => c.run root st) st = some st' := hrun
      rw [runCalls, List.foldlM_append, hrun₀, Option.bind_eq_bind, Option.bind_some,
        List.foldlM_cons, hrun']
      rfl
    rw [hlast _ hcalls' _ hrun'' ipa hipa, hlast _ hcalls _ hrun ipa hipa, List.reverse_append,
      List.reverse_singleton, List.singleton_append, List.find?_cons, hcov]

/-- A root at 64 KiB with four pages to allocate from. -/
def demoTables : Tables where
  mem _ := 0
  supply := [0x20000, 0x21000, 0x22000, 0x23000]

/-- The demonstration root is fresh. -/
lemma demoTables_freshRoot : FreshRoot 0x10000 demoTables where
  root_dvd := by decide
  zero _ _ := rfl
  page := by
    intro p hp
    have hcases : p = 0x20000 ∨ p = 0x21000 ∨ p = 0x22000 ∨ p = 0x23000 := by
      simpa [demoTables] using hp
    rcases hcases with rfl | rfl | rfl | rfl
    all_goals exact ⟨⟨by decide, by decide⟩, by decide, by decide⟩
  nodup := by decide

/-- A device page in the middle of a block of RAM: the page reaches the device, its neighbours still
reach RAM, and nothing else is mapped. -/
theorem hwWalk_device_page_in_block :
    ∃ st', runCalls 0x10000 [.block 0x40000000 0x80000000 false, .page 0x40001000 0x9000000 true]
        demoTables = some st' ∧
      hwWalk st'.mem 0x10000 0x40001234 = some ⟨0x9000234, ⟨0, 3, 3, 1, 2⟩⟩ ∧
      hwWalk st'.mem 0x10000 0x40000FFF = some ⟨0x80000FFF, ⟨15, 3, 3, 1, 0⟩⟩ ∧
      hwWalk st'.mem 0x10000 0x40002000 = some ⟨0x80002000, ⟨15, 3, 3, 1, 0⟩⟩ ∧
      hwWalk st'.mem 0x10000 0x40200000 = none := by
  have hcalls : ∀ c ∈ [MapCall.block 0x40000000 0x80000000 false, .page 0x40001000 0x9000000 true],
      c.WellFormed := by
    intro c hc
    have hcases : c = .block 0x40000000 0x80000000 false ∨ c = .page 0x40001000 0x9000000 true := by
      simpa using hc
    rcases hcases with rfl | rfl
    all_goals exact ⟨by decide, by decide, by decide, by decide⟩
  obtain ⟨hsome, hwalk⟩ := hwWalk_eq_last_call demoTables_freshRoot hcalls
  obtain ⟨st', hst'⟩ := Option.isSome_iff_exists.mp (hsome (by decide))
  have hat := (hwalk st' hst').1
  refine ⟨st', hst', ?_, ?_, ?_, ?_⟩
  · rw [hat _ (by norm_num)]
    decide
  · rw [hat _ (by norm_num)]
    decide
  · rw [hat _ (by norm_num)]
    decide
  · rw [hat _ (by norm_num)]
    decide

end WellFormed

end GuestMmu

end HyperBerry
