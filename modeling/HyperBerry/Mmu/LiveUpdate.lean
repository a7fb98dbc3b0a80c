import HyperBerry.Mmu.Commits

/-!
# Changing the tables of a running guest

What `MapBlock` and `MapPage` ask of the memory system is a path of commits (`follow_call`), and so
is what a sequence of calls asks (`follow_calls`).  Along the path the tables map what they mapped
before a call or what they will map after it; only the split of a block unmaps the block in between.
-/

namespace HyperBerry

namespace GuestMmu

open Cache Walk

/-! ## The paths of the code -/

/-- The events of some code are those of a path from `x` to `y`, with commits as `P` says. -/
def Follows (hcr root : ℕ) (x : Snapshot) (es : List (Event ℕ ℕ)) (P : Commit ℕ ℕ × Snapshot → Prop)
    (y : Snapshot) : Prop :=
  ∃ l, Path hcr root x l ∧ es = planEvents (stages l) ∧ lastOf x l = y ∧ ∀ z ∈ l, P z

/-- A commit that leaves the page map alone. -/
def Calm (m : ℕ → Option Target) (z : Commit ℕ ℕ × Snapshot) : Prop :=
  z.2.map = m ∧ z.2.split = none ∧ z.1.value % 4 ≠ 1

section Follows

variable {ctr hcr root : ℕ} {x y : Snapshot} {es es' : List (Event ℕ ℕ)}
  {P Q : Commit ℕ ℕ × Snapshot → Prop}

lemma Follows.refl (x : Snapshot) : Follows hcr root x [] P x :=
  ⟨[], .nil x, rfl, rfl, fun _ hz => absurd hz List.not_mem_nil⟩

lemma Follows.trans {w : Snapshot} (h : Follows hcr root x es P y)
    (h' : Follows hcr root y es' P w) : Follows hcr root x (es ++ es') P w := by
  obtain ⟨l, hl, rfl, rfl, hP⟩ := h
  obtain ⟨l', hl', rfl, rfl, hP'⟩ := h'
  refine ⟨l ++ l', hl.append hl', ?_, lastOf_append, List.forall_mem_append.mpr ⟨hP, hP'⟩⟩
  rw [planEvents, planEvents, planEvents, stages, stages, stages, List.map_append,
    List.flatMap_append]

lemma Follows.mono (h : Follows hcr root x es P y) (hPQ : ∀ z, P z → Q z) :
    Follows hcr root x es Q y := by
  obtain ⟨l, hl, hes, hy, hP⟩ := h
  exact ⟨l, hl, hes, hy, fun z hz => hPQ z (hP z hz)⟩

lemma Next.follows {r : Commit ℕ ℕ} (h : Next hcr root r x y) (hP : P (r, y)) :
    Follows hcr root x r.events P y :=
  ⟨[(r, y)], .cons h (.nil y), (List.append_nil _).symm, rfl, List.forall_mem_singleton.mpr hP⟩

lemma Follows.represents (h : Follows hcr root x es P y)
    (hx : Represents root x.st x.layout x.map) : Represents root y.st y.layout y.map := by
  obtain ⟨l, hl, -, rfl, -⟩ := h
  exact hl.represents hx

/-- Go on after code that returned. -/
lemma bind_ok {β α γ : Type} (es : List (Event ℕ β)) (t : α) (k : α → CacheRun β γ) :
    Run.bind ⟨es, .ok t⟩ k = ⟨es ++ (k t).visits, (k t).result⟩ := rfl

/-- Code that does not return. -/
lemma bind_error {β α γ : Type} (es : List (Event ℕ β)) (k : α → CacheRun β γ) :
    Run.bind ⟨es, .error ()⟩ k = ⟨es, .error ()⟩ := rfl

/-- The walk of the guest MMU reads one level 1 entry. -/
lemma walkRun_eq (root ipa : ℕ) (st : Tables) :
    (stage2Table root).walkRun ctr ipa true st =
      let slot := root + 8 * (entryOf ipa / 512)
      if pteIsValid (st.mem slot) then
        ⟨[], .ok (st, some (pteNextTable (st.mem slot) + 8 * (entryOf ipa % 512)))⟩
      else (st.allocTableRun ctr).bind fun r =>
        (r.1.storeRun ctr slot (r.2 ||| pteValid ||| pteTable)).bind fun st =>
          ⟨[], .ok (st, some (pteNextTable (st.mem slot) + 8 * (entryOf ipa % 512)))⟩ := by
  rw [← l1Index_eq, ← l2Index_eq]
  rfl

/-- The walk to a level 2 entry. -/
lemma follow_walk (ctr hcr : ℕ) (h : Represents root x.st x.layout x.map) (hroot : root < 2 ^ 48)
    (hx : x.split = none) (ipa : ℕ) :
    ∃ y, Follows hcr root x ((stage2Table root).walkRun ctr ipa true x.st).visits (Calm x.map) y ∧
      y.map = x.map ∧ y.split = none ∧
      (((stage2Table root).walk ipa true x.st = none ∧
          ((stage2Table root).walkRun ctr ipa true x.st).result = .error ()) ∨
        ∃ t, (stage2Table root).walk ipa true x.st =
          some (y.st, some (t + 8 * (entryOf ipa % 512))) ∧
          ((stage2Table root).walkRun ctr ipa true x.st).result =
            .ok (y.st, some (t + 8 * (entryOf ipa % 512))) ∧
          y.layout.level2 (entryOf ipa / 512) = some t) := by
  have hi : entryOf ipa / 512 < 1024 := by
    unfold entryOf
    omega
  have hslot : root + 8 * (entryOf ipa / 512) =
      root + pageSize * (entryOf ipa / 512 / 512) + 8 * (entryOf ipa / 512 % 512) := by
    unfold pageSize
    omega
  have hentry := h.entry1 _ hi
  rw [walk_eq, walkRun_eq]
  simp only [hslot]
  cases h2 : x.layout.level2 (entryOf ipa / 512) with
  | some t =>
    have ht := (h.valid.level2 _ _ h2).1
    have hvalid : pteIsValid (tableEntry (some t)) = true := by
      have := tableEntry_mod_four ht
      rw [pteIsValid_iff]
      omega
    rw [h2] at hentry
    simp only [hentry, if_pos hvalid]
    refine ⟨x, .refl x, rfl, hx, .inr ⟨t, ?_, ?_, h2⟩⟩
    · rw [pteNextTable_eq, nextTable_tableEntry ht]
    · rw [pteNextTable_eq, nextTable_tableEntry ht]
  | none =>
    have hvalid : ¬ pteIsValid (tableEntry none) = true := by decide
    rw [h2] at hentry
    simp only [hentry, if_neg hvalid]
    cases hs : x.st.supply with
    | nil =>
      refine ⟨x, ?_, rfl, hx, .inl ⟨?_, ?_⟩⟩
      · rw [Tables.allocTableRun_nil hs]
        exact .refl x
      · simp [Tables.allocTable, hs]
      · rw [Tables.allocTableRun_nil hs]
        rfl
    | cons u supply =>
      have hu := (h.valid.fresh u (by rw [hs]; exact List.mem_cons_self)).1
      have hnext : Next hcr root (entryCommit ctr _ _ _) x _ := next_addLevel2 h hroot hx hi h2 hs
      have hlt : root + pageSize * (entryOf ipa / 512 / 512) + 8 * (entryOf ipa / 512 % 512) <
          2 ^ 63 := by
        unfold pageSize
        omega
      clear hentry
      revert hnext hlt
      generalize root + pageSize * (entryOf ipa / 512 / 512) + 8 * (entryOf ipa / 512 % 512) = slot
      intro hnext hlt
      have hback : pteNextTable
          (((Tables.clear { x.st with supply := supply } u pageSize).store slot
          (tableEntry (some u))).mem slot) = u := by
        rw [pteNextTable_eq, Tables.store]
        simp only [Function.update_self, nextTable_tableEntry hu]
      have hfollows := hnext.follows (P := Calm x.map) ⟨rfl, rfl, by
        rw [entryCommit, tableEntry_mod_four hu]
        decide⟩
      have hlevel2 : (x.layout.addLevel2 (entryOf ipa / 512) u).level2 (entryOf ipa / 512) =
          some u :=
        Function.update_self ..
      have halloc : x.st.allocTable =
          some (Tables.clear { x.st with supply := supply } u pageSize, u) := by
        rw [Tables.allocTable, hs]
      refine ⟨⟨(Tables.clear { x.st with supply := supply } u pageSize).store slot
        (tableEntry (some u)),
        x.layout.addLevel2 (entryOf ipa / 512) u, x.map, none, x.epoch⟩, ?_, rfl, rfl,
        .inr ⟨u, ?_, ?_, hlevel2⟩⟩
      · rw [Tables.allocTableRun_eq hs hu.lt, bind_ok, Tables.storeRun_eq hlt, bind_ok,
          List.append_nil, tableDescriptor_eq hu.dvd]
        exact hfollows
      · rw [halloc, Option.bind_some, tableDescriptor_eq hu.dvd, hback]
      · rw [Tables.allocTableRun_eq hs hu.lt, bind_ok, Tables.storeRun_eq hlt, bind_ok,
          tableDescriptor_eq hu.dvd, hback]

/-- A commit of the split of a level 2 entry. -/
def Splitting (m : ℕ → Option Target) (j : ℕ) (z : Commit ℕ ℕ × Snapshot) : Prop :=
  Calm m z ∨ z.2.map = unmapEntry m j ∧ z.2.split = some j ∧ z.1.value % 4 ≠ 1

/-- The replacement of a level 2 entry by a table. -/
lemma follow_splitL2 (ctr hcr : ℕ) (h : Represents root x.st x.layout x.map)
    (hx : x.split = none) {j t : ℕ}
    (hj : j < 2 ^ 19) (ht : x.layout.level2 (j / 512) = some t) (hnone : x.layout.level3 j = none) :
    ∃ y, Follows hcr root x (splitL2Run ctr hcr x.st (t + 8 * (j % 512))).visits
        (Splitting x.map j) y ∧ y.map = x.map ∧ y.split = none ∧ y.layout.level2 = x.layout.level2 ∧
      ((splitL2 x.st (t + 8 * (j % 512)) = none ∧
          (splitL2Run ctr hcr x.st (t + 8 * (j % 512))).result = .error ()) ∨
        splitL2 x.st (t + 8 * (j % 512)) = some y.st ∧
          (splitL2Run ctr hcr x.st (t + 8 * (j % 512))).result = .ok y.st ∧
          ∃ u, y.layout.level3 j = some u) := by
  cases hs : x.st.supply with
  | nil =>
    refine ⟨x, ?_, rfl, hx, rfl, .inl ⟨?_, ?_⟩⟩
    · rw [splitL2Run, Tables.allocTableRun_nil hs]
      exact .refl x
    · simp [splitL2, Tables.allocTable, hs]
    · rw [splitL2Run, Tables.allocTableRun_nil hs]
      rfl
  | cons u supply =>
    obtain ⟨hu, -⟩ := h.valid.fresh u (by rw [hs]; exact List.mem_cons_self)
    have htlt := (h.valid.level2 _ _ ht).1.lt
    have hlt : t + 8 * (j % 512) < 2 ^ 63 := by omega
    have hslot : x.st.mem (t + 8 * (j % 512)) = blockEntry (x.map (512 * j)) :=
      h.entry2_block j hj t ht hnone
    have halloc : x.st.allocTable =
        some (Tables.clear { x.st with supply := supply } u pageSize, u) := by
      rw [Tables.allocTable, hs]
    have hvalue : tableEntry (some u) % 4 ≠ 1 := by
      rw [tableEntry_mod_four hu]
      decide
    have hlevel3 : (x.layout.addLevel3 j u).level3 j = some u := Function.update_self ..
    cases hm : x.map (512 * j) with
    | none =>
      have hblock : ¬ pteIsBlock (blockEntry none) = true := by decide
      have hrun : splitL2Run ctr hcr x.st (t + 8 * (j % 512)) =
          ⟨(entryCommit ctr (Tables.zeroEvents ctr u) (t + 8 * (j % 512))
            (tableEntry (some u))).events,
            .ok ((Tables.clear { x.st with supply := supply } u pageSize).store (t + 8 * (j % 512))
              (tableEntry (some u)))⟩ := by
        rw [splitL2Run, hslot, hm, Tables.allocTableRun_eq hs hu.lt, bind_ok]
        simp only [if_neg hblock]
        rw [bind_ok, tableDescriptor_eq hu.dvd, Tables.storeRun_eq hlt]
        rfl
      have hplain : splitL2 x.st (t + 8 * (j % 512)) =
          some ((Tables.clear { x.st with supply := supply } u pageSize).store (t + 8 * (j % 512))
            (tableEntry (some u))) := by
        simp only [splitL2, hslot, hm, halloc, Option.bind_eq_bind, Option.bind_some, if_neg hblock,
          tableDescriptor_eq hu.dvd, Option.pure_def]
      rw [hrun, hplain]
      exact ⟨_, (next_addLevel3 h hx hj ht hnone hm hs).follows (.inl ⟨rfl, rfl, hvalue⟩),
        rfl, rfl, rfl, .inr ⟨rfl, rfl, u, hlevel3⟩⟩
    | some τ =>
      have hblock : pteIsBlock (blockEntry (some τ)) = true :=
        (pteIsBlock_iff _).mpr (blockEntry_mod_four τ)
      have hsize : size2MB / size4KB = 512 := rfl
      have hclean : (PageTable.cleanDataCacheRange ctr u size4KB : CacheRun ℕ Unit) =
          ⟨flush (PageTable.cleanLines ctr u pageSize), .ok ()⟩ :=
        (PageTable.cleanDataCacheRange_eq (by decide) (by have := hu.lt; unfold size4KB; omega)).1
      obtain ⟨entry, hentry⟩ : ∃ entry : ℕ → ℕ,
          (fun i => add64 (blockEntry (some τ) &&& pteAddrMask) (i * size4KB) |||
            ((blockEntry (some τ) &&& not64 pteAddrMask) ||| pteTable)) = entry := ⟨_, rfl⟩
      have hpages : ∀ k < 512, entry k = pageEntry (x.map (512 * j + k)) := by
        intro k hk
        have hdiv : (512 * j + k) / 512 = j := by omega
        have hmod : (512 * j + k) % 512 = k := by omega
        rw [h.block (512 * j + k) (by omega) (by rw [hdiv]; exact hnone), hdiv, hmod, hm, ← hentry]
        exact splitEntry_eq (h.page_lt _ _ hm) (h.block_dvd j hj hnone τ hm) hk
      obtain ⟨z, hz⟩ : ∃ z, splitSnapshot x supply j u (t + 8 * (j % 512)) entry = z := ⟨_, rfl⟩
      have hunmap : Next hcr root (entryCommit ctr (splitEvents ctr u entry) _ _) x _ :=
        next_unmap h hx hj ht hnone hs
      have hrelink : Next hcr root (entryCommit ctr _ _ _) z _ :=
        next_relink h hj ht hnone hs hpages hz
      rw [hz] at hunmap
      have hstore : ((Tables.clear { x.st with supply := supply } u pageSize).fill u
          entry 512).store (t + 8 * (j % 512)) 0 = z.st := by rw [← hz, splitSnapshot]
      have hrun : splitL2Run ctr hcr x.st (t + 8 * (j % 512)) =
          ⟨(entryCommit ctr (splitEvents ctr u entry) (t + 8 * (j % 512)) 0).events ++
            (entryCommit ctr (tlbEvents hcr) (t + 8 * (j % 512)) (tableEntry (some u))).events,
            .ok (joinSnapshot hcr x z j u (t + 8 * (j % 512))).st⟩ := by
        rw [splitL2Run, hslot, hm, Tables.allocTableRun_eq hs hu.lt, bind_ok]
        simp only [if_pos hblock, hsize, hentry, Tables.writes, hclean, bind_ok,
          Tables.storeRun_eq hlt, tableDescriptor_eq hu.dvd, hstore, joinSnapshot]
        simp only [Commit.events, entryCommit, splitEvents, tlbEvents, List.append_assoc,
          List.cons_append]
      have hplain : splitL2 x.st (t + 8 * (j % 512)) =
          some (joinSnapshot hcr x z j u (t + 8 * (j % 512))).st := by
        simp only [splitL2, hslot, hm, halloc, Option.bind_eq_bind, Option.bind_some, if_pos hblock,
          hsize, hentry, hstore, tableDescriptor_eq hu.dvd, Option.pure_def, joinSnapshot]
      rw [hrun, hplain]
      refine ⟨joinSnapshot hcr x z j u (t + 8 * (j % 512)), ?_, rfl, rfl, rfl,
        .inr ⟨rfl, rfl, u, hlevel3⟩⟩
      have hmap : z.map = unmapEntry x.map j := by rw [← hz, splitSnapshot]
      have hsplit : z.split = some j := by rw [← hz, splitSnapshot]
      exact (hunmap.follows (.inr ⟨hmap, hsplit, Nat.zero_ne_one⟩)).trans
        (hrelink.follows (.inl ⟨rfl, rfl, hvalue⟩))

/-- The walk to a level 3 entry. -/
lemma follow_walkL3 (ctr hcr : ℕ) (h : Represents root x.st x.layout x.map) (hroot : root < 2 ^ 48)
    (hx : x.split = none) (ipa : ℕ) :
    ∃ y, Follows hcr root x (walkL3Run ctr hcr (stage2Table root) ipa x.st).visits
        (Splitting x.map (entryOf ipa)) y ∧ y.map = x.map ∧ y.split = none ∧
      ((walkL3 (stage2Table root) ipa x.st = none ∧
          (walkL3Run ctr hcr (stage2Table root) ipa x.st).result = .error ()) ∨
        ∃ u, walkL3 (stage2Table root) ipa x.st = some (y.st, some (u + 8 * (pageOf ipa % 512))) ∧
          (walkL3Run ctr hcr (stage2Table root) ipa x.st).result =
            .ok (y.st, some (u + 8 * (pageOf ipa % 512))) ∧
          y.layout.level3 (pageOf ipa / 512) = some u) := by
  have hj : entryOf ipa < 2 ^ 19 := Nat.mod_lt _ (by norm_num)
  rw [pageOf_div, ← l3Index_eq]
  obtain ⟨y₁, hfollows₁, hmap₁, hsplit₁, hcases⟩ := follow_walk ctr hcr h hroot hx ipa
  have h₁ := hfollows₁.represents h
  have hfollows₁' : Follows hcr root x _ (Splitting x.map (entryOf ipa)) y₁ :=
    hfollows₁.mono fun z hz => .inl hz
  rcases hcases with ⟨hplain, hresult⟩ | ⟨t, hplain, hresult, ht⟩
  · have hrun : walkL3Run ctr hcr (stage2Table root) ipa x.st =
        ⟨((stage2Table root).walkRun ctr ipa true x.st).visits, .error ()⟩ := by
      rw [walkL3Run, Run.eq_mk hresult, bind_error]
    have hplain' : walkL3 (stage2Table root) ipa x.st = none := by simp [walkL3, hplain]
    rw [hrun, hplain']
    exact ⟨y₁, hfollows₁', hmap₁, hsplit₁, .inl ⟨rfl, rfl⟩⟩
  · rw [walkL3Run, Run.eq_mk hresult, bind_ok]
    simp only [walkL3, hplain, Option.bind_eq_bind, Option.bind_some, Option.pure_def]
    cases h3 : y₁.layout.level3 (entryOf ipa) with
    | some u =>
      have hu := (h₁.valid.level3 _ _ h3).1
      have hentry := h₁.entry2_table _ hj t u ht h3
      have htable : pteIsTable (tableEntry (some u)) = true :=
        (pteIsTable_iff _).mpr (tableEntry_mod_four hu)
      refine ⟨y₁, ?_, hmap₁, hsplit₁, .inr ⟨u, ?_, ?_, h3⟩⟩
      · simpa only [hentry, htable, if_true, bind_ok, List.append_nil] using hfollows₁'
      · simp only [hentry, htable, if_true, pteNextTable_eq, nextTable_tableEntry hu]
      · simp only [hentry, htable, if_true, bind_ok, pteNextTable_eq, nextTable_tableEntry hu]
    | none =>
      have hentry := h₁.entry2_block _ hj t ht h3
      have htable : pteIsTable (blockEntry (y₁.map (512 * entryOf ipa))) = false := by
        cases hm : y₁.map (512 * entryOf ipa) with
        | none => rfl
        | some τ =>
          rw [Bool.eq_false_iff, Ne, pteIsTable_iff, blockEntry_mod_four]
          norm_num
      obtain ⟨y₂, hfollows₂, hmap₂, hsplit₂, hlevel2, hcases₂⟩ :=
        follow_splitL2 ctr hcr h₁ hsplit₁ hj ht h3
      rw [hmap₁] at hfollows₂ hmap₂
      have hfollows := hfollows₁'.trans hfollows₂
      simp only [hentry, htable, Bool.false_eq_true, if_false]
      rcases hcases₂ with ⟨hplain₂, hresult₂⟩ | ⟨hplain₂, hresult₂, u, h3'⟩
      · refine ⟨y₂, ?_, hmap₂, hsplit₂, .inl ⟨?_, ?_⟩⟩
        · rw [Run.eq_mk hresult₂, bind_error]
          exact hfollows
        · rw [hplain₂, Option.bind_none]
        · rw [Run.eq_mk hresult₂, bind_error]
      · have h₂ := hfollows₂.represents h₁
        have hu := (h₂.valid.level3 _ _ h3').1
        have hentry₂ := h₂.entry2_table _ hj t u (by rw [hlevel2, ht]) h3'
        have htable₂ : pteIsTable (tableEntry (some u)) = true :=
          (pteIsTable_iff _).mpr (tableEntry_mod_four hu)
        refine ⟨y₂, ?_, hmap₂, hsplit₂, .inr ⟨u, ?_, ?_, h3'⟩⟩
        · rw [Run.eq_mk hresult₂, bind_ok]
          simp only [hentry₂, htable₂, if_true, List.append_nil]
          exact hfollows
        · simp only [hplain₂, Option.bind_some, hentry₂, htable₂, if_true, pteNextTable_eq,
            nextTable_tableEntry hu]
        · rw [Run.eq_mk hresult₂, bind_ok]
          simp only [hentry₂, htable₂, if_true, pteNextTable_eq, nextTable_tableEntry hu]

/-- `MapPage` is called. -/
def MapCall.IsPage : MapCall → Prop
  | block _ _ _ => False
  | page _ _ _ => True

lemma MapCall.IsPage.aligned {c : MapCall} (h : c.IsPage) : c.Aligned := by
  cases c with
  | block => exact h.elim
  | page => trivial

/-- What is mapped during a call: what was before it or what will be after it, or a block is
unmapped to be split. -/
def During (root : ℕ) (x : Snapshot) (c : MapCall) (z : Snapshot) : Prop :=
  z.split = none ∧ (z.map = x.map ∨ z.map = overlay x.map c.target ∧ c.run root x.st ≠ none) ∨
    ∃ ipa pa isDevice, c = .page ipa pa isDevice ∧ z.map = unmapEntry x.map (entryOf ipa) ∧
      z.split = some (entryOf ipa)

/-- A call. -/
lemma follow_call (ctr hcr : ℕ) (h : Represents root x.st x.layout x.map) (hroot : root < 2 ^ 48)
    (hx : x.split = none) {c : MapCall} (hc : c.Aligned) :
    ∃ y, Follows hcr root x (c.cacheRun ctr hcr root x.st).visits
        (fun z => During root x c z.2 ∧ (c.IsPage → z.1.value % 4 ≠ 1)) y ∧ y.split = none ∧
      ((c.run root x.st = none ∧ (c.cacheRun ctr hcr root x.st).result = .error ()) ∨
        c.run root x.st = some y.st ∧ (c.cacheRun ctr hcr root x.st).result = .ok y.st ∧
          y.map = overlay x.map c.target) := by
  cases c with
  | block ipa pa isDevice =>
    have hj : entryOf ipa < 2 ^ 19 := Nat.mod_lt _ (by norm_num)
    have hdvd : 512 ∣ pa / 2 ^ 12 % 2 ^ 36 := by
      obtain ⟨k, rfl⟩ : size2MB ∣ pa := hc
      unfold size2MB
      omega
    have hmap : overlay x.map (MapCall.block ipa pa isDevice).target =
        setBlockMap x.map (entryOf ipa) ⟨pa / 2 ^ 12 % 2 ^ 36, isDevice⟩ := by
      funext p
      rw [overlay, MapCall.target, setBlockMap]
      split <;> rfl
    obtain ⟨y, hfollows, hymap, hsplit, hcases⟩ := follow_walk ctr hcr h hroot hx ipa
    have hfollows' : Follows hcr root x _ (fun z => During root x (.block ipa pa isDevice) z.2 ∧
        ((MapCall.block ipa pa isDevice).IsPage → z.1.value % 4 ≠ 1)) y :=
      hfollows.mono fun z hz => ⟨.inl ⟨hz.2.1, .inl hz.1⟩, fun hpage => hpage.elim⟩
    simp only [MapCall.cacheRun, MapCall.run, mapBlockRun, mapBlock]
    rcases hcases with ⟨hplain, hresult⟩ | ⟨t, hplain, hresult, ht⟩
    · rw [Run.eq_mk hresult, bind_error, hplain]
      exact ⟨y, hfollows', hsplit, .inl ⟨rfl, rfl⟩⟩
    · have hy := hfollows.represents h
      have htlt := (hy.valid.level2 _ _ ht).1.lt
      have hlt : t + 8 * (entryOf ipa % 512) < 2 ^ 63 := by omega
      have hnext : Next hcr root (entryCommit ctr [] _ _) y _ := next_setBlock hy hsplit hj ht
        (Nat.mod_lt _ (by norm_num)) (τ := ⟨pa / 2 ^ 12 % 2 ^ 36, isDevice⟩) hdvd
      rw [Run.eq_mk hresult, bind_ok, hplain]
      simp only [Option.bind_eq_bind, Option.bind_some, Option.pure_def, Tables.storeRun_eq hlt,
        buildStage2BlockDescriptor_eq]
      refine ⟨_, hfollows'.trans (hnext.follows ⟨.inl ⟨rfl, .inr ⟨?_, ?_⟩⟩,
        fun hpage => hpage.elim⟩), rfl, .inr ⟨rfl, rfl, ?_⟩⟩
      · rw [hmap, hymap]
      · simp [MapCall.run, mapBlock, hplain]
      · rw [hmap, hymap]
  | page ipa pa isDevice =>
    have hp : pageOf ipa < 2 ^ 28 := Nat.mod_lt _ (by norm_num)
    have hmap : overlay x.map (MapCall.page ipa pa isDevice).target =
        Function.update x.map (pageOf ipa) (some ⟨pa / 2 ^ 12 % 2 ^ 36, isDevice⟩) := by
      funext p
      rw [overlay, MapCall.target, Function.update_apply]
      split <;> rfl
    obtain ⟨y, hfollows, hymap, hsplit, hcases⟩ := follow_walkL3 ctr hcr h hroot hx ipa
    have hfollows' : Follows hcr root x (walkL3Run ctr hcr (stage2Table root) ipa x.st).visits
        (fun z => During root x (.page ipa pa isDevice) z.2 ∧
          ((MapCall.page ipa pa isDevice).IsPage → z.1.value % 4 ≠ 1)) y := by
      refine hfollows.mono fun z hz => ?_
      rcases hz with hcalm | ⟨hzmap, hzsplit, hvalue⟩
      · exact ⟨.inl ⟨hcalm.2.1, .inl hcalm.1⟩, fun _ => hcalm.2.2⟩
      · exact ⟨.inr ⟨ipa, pa, isDevice, rfl, hzmap, hzsplit⟩, fun _ => hvalue⟩
    simp only [MapCall.cacheRun, MapCall.run, mapPageRun, mapPage]
    rcases hcases with ⟨hplain, hresult⟩ | ⟨u, hplain, hresult, hu⟩
    · rw [Run.eq_mk hresult, bind_error, hplain]
      exact ⟨y, hfollows', hsplit, .inl ⟨rfl, rfl⟩⟩
    · have hy := hfollows.represents h
      have hult := (hy.valid.level3 _ _ hu).1.lt
      have hlt : u + 8 * (pageOf ipa % 512) < 2 ^ 63 := by omega
      have hτ : (Target.mk (pa / 2 ^ 12 % 2 ^ 36) isDevice).page < 2 ^ 36 :=
        Nat.mod_lt _ (by norm_num)
      have hnext : Next hcr root (entryCommit ctr [] _ _) y _ := next_setPage hy hsplit hp hu hτ
      rw [Run.eq_mk hresult, bind_ok, hplain]
      simp only [Option.bind_eq_bind, Option.bind_some, Option.pure_def, Tables.storeRun_eq hlt,
        buildStage2PageDescriptor_eq]
      refine ⟨_, hfollows'.trans (hnext.follows ⟨.inl ⟨rfl, .inr ⟨?_, ?_⟩⟩, fun _ => ?_⟩), rfl,
        .inr ⟨rfl, rfl, ?_⟩⟩
      · rw [hmap, hymap]
      · simp [MapCall.run, mapPage, hplain]
      · rw [entryCommit, pageEntry_mod_four]
        decide
      · rw [hmap, hymap]

/-- What is mapped during a sequence of calls: what is after the first `k` of them, or a block is
unmapped because the next one splits it. -/
def Along (root : ℕ) (x : Snapshot) (calls : List MapCall) (z : Snapshot) : Prop :=
  ∃ k st', runCalls root (calls.take k) x.st = some st' ∧
    (z.split = none ∧ z.map = callsMap (calls.take k) x.map ∨
      ∃ ipa pa isDevice, calls[k]? = some (.page ipa pa isDevice) ∧
        z.map = unmapEntry (callsMap (calls.take k) x.map) (entryOf ipa) ∧
        z.split = some (entryOf ipa))

/-- The first call of a sequence. -/
lemma During.along {c : MapCall} {z : Snapshot} (h : During root x c z) (calls : List MapCall) :
    Along root x (c :: calls) z := by
  rcases h with ⟨hsplit, hold | ⟨hnew, hrun⟩⟩ | ⟨ipa, pa, isDevice, rfl, hmap, hsplit⟩
  · exact ⟨0, x.st, rfl, .inl ⟨hsplit, hold⟩⟩
  · obtain ⟨st', hst'⟩ := Option.ne_none_iff_exists'.mp hrun
    refine ⟨1, st', ?_, .inl ⟨hsplit, hnew⟩⟩
    simpa [runCalls] using hst'
  · exact ⟨0, x.st, rfl, .inr ⟨ipa, pa, isDevice, rfl, hmap, hsplit⟩⟩

/-- The other calls. -/
lemma Along.cons {c : MapCall} {calls : List MapCall} {z : Snapshot} (h : Along root y calls z)
    (hrun : c.run root x.st = some y.st) (hmap : y.map = overlay x.map c.target) :
    Along root x (c :: calls) z := by
  obtain ⟨k, st', hst', hcases⟩ := h
  refine ⟨k + 1, st', ?_, ?_⟩
  · rw [List.take_succ_cons, runCalls, List.foldlM_cons, hrun]
    exact hst'
  · rw [hmap] at hcases
    exact hcases

/-- A sequence of calls. -/
lemma follow_calls (ctr hcr : ℕ) (hroot : root < 2 ^ 48) : ∀ {calls : List MapCall} {x : Snapshot},
    Represents root x.st x.layout x.map → x.split = none → (∀ c ∈ calls, c.Aligned) →
    ∃ y, Follows hcr root x (callsRun ctr hcr root calls x.st).visits
        (fun z => Along root x calls z.2 ∧ ((∀ c ∈ calls, c.IsPage) → z.1.value % 4 ≠ 1)) y ∧
      y.split = none ∧
      ((runCalls root calls x.st = none ∧ (callsRun ctr hcr root calls x.st).result = .error ()) ∨
        runCalls root calls x.st = some y.st ∧
          (callsRun ctr hcr root calls x.st).result = .ok y.st ∧ y.map = callsMap calls x.map) := by
  intro calls
  induction calls with
  | nil => exact fun {x} _ hx _ => ⟨x, .refl x, hx, .inr ⟨rfl, rfl, rfl⟩⟩
  | cons c calls ih =>
    intro x h hx hal
    obtain ⟨hc, hrest⟩ := List.forall_mem_cons.mp hal
    obtain ⟨y₁, hfollows₁, hsplit₁, hcases⟩ := follow_call ctr hcr h hroot hx hc
    have hfollows₁' : Follows hcr root x (c.cacheRun ctr hcr root x.st).visits
        (fun z => Along root x (c :: calls) z.2 ∧
          ((∀ c' ∈ c :: calls, c'.IsPage) → z.1.value % 4 ≠ 1)) y₁ :=
      hfollows₁.mono fun z hz =>
        ⟨hz.1.along calls, fun hpages => hz.2 (hpages c List.mem_cons_self)⟩
    rw [callsRun, foldRun]
    rcases hcases with ⟨hplain, hresult⟩ | ⟨hplain, hresult, hmap₁⟩
    · have hplain' : runCalls root (c :: calls) x.st = none := by
        rw [runCalls, List.foldlM_cons, hplain]
        rfl
      rw [Run.eq_mk hresult, bind_error, hplain']
      exact ⟨y₁, hfollows₁', hsplit₁, .inl ⟨rfl, rfl⟩⟩
    · have hplain' : runCalls root (c :: calls) x.st = runCalls root calls y₁.st := by
        rw [runCalls, List.foldlM_cons, hplain]
        rfl
      obtain ⟨y, hfollows, hsplit, hcases⟩ := ih (hfollows₁.represents h) hsplit₁ hrest
      have hfollows' : Follows hcr root y₁ (callsRun ctr hcr root calls y₁.st).visits
          (fun z => Along root x (c :: calls) z.2 ∧
            ((∀ c' ∈ c :: calls, c'.IsPage) → z.1.value % 4 ≠ 1)) y :=
        hfollows.mono fun z hz => ⟨hz.1.cons hplain hmap₁, fun hpages =>
          hz.2 fun c' hc' => hpages c' (List.mem_cons_of_mem _ hc')⟩
      rw [Run.eq_mk hresult, bind_ok, hplain']
      refine ⟨y, hfollows₁'.trans hfollows', hsplit, ?_⟩
      rcases hcases with herror | ⟨hrun, hok, hmap⟩
      · exact .inl herror
      · refine .inr ⟨hrun, hok, ?_⟩
        rw [hmap, hmap₁]
        rfl

end Follows

end GuestMmu

end HyperBerry
