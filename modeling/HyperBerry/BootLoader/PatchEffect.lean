import HyperBerry.BootLoader.PatchRun

/-!
# What the patcher does to a tree

The theorem on `DtbPatcher::Run`: on any buffer it ends without an access outside of the buffer and
changes nothing but the values of the properties it is looking for.  When it returns true, there is
exactly one of each of them, its value is the one of the layout, everything else about the tree is
unchanged, and a second run changes nothing.
-/

namespace HyperBerry

namespace BootLoader

open Memory DtbPatcher Walk
open DeviceTree hiding inBounds

variable {layout : GuestLayout} {blocks : Blocks} {s s' : Progress} {t : Token} {a b e : ℕ}
  {l l' : List (ℕ × Token)} {path : List Name} {slot : Slot}

/-! ## Sites -/

/-- A property that fills a slot: it has the name of the slot, lies directly below a depth-1 node of
the right kind, and its value lies 12 bytes behind `a`.  `l` are the tokens in front of it. -/
def Site (B : Blob) (start : ℕ) (slot : Slot) (a : ℕ) (value : List UInt8) : Prop :=
  ∃ l node nameOff b, Tokens B start l a ∧ Nested [] l ∧ pathOf [] l = [[], node] ∧
    kindOf node = slot.node ∧ TokenAt B a (.prop nameOff slot.name value) b

/-- The slots in two stretches. -/
lemma sitesOf_append : sitesOf path (l ++ l') = sitesOf path l ++ sitesOf (pathOf path l) l' := by
  induction l generalizing path with
  | nil => rfl
  | cons p l ih =>
    obtain ⟨a, t⟩ := p
    rw [List.cons_append, sitesOf, sitesOf, ih, List.append_assoc]
    rfl

/-- The state at a slot. -/
lemma Reaches.at_site (h : Reaches layout blocks s l s') (hmem : (a, slot) ∈ sitesOf s.path l) :
    ∃ l₁ s₁ t b, Reaches layout blocks s l₁ s₁ ∧ s₁.cursor = a ∧
      TokenAt (blocks.blob s₁.mem) a t b ∧ s₁.Allows t ∧ siteOf s₁.path t = some slot := by
  induction h with
  | refl => cases hmem
  | @step s s' t b l ht hal htail ih =>
    rw [sitesOf, List.mem_append] at hmem
    rcases hmem with hhead | hrest
    · obtain ⟨slot', hslot, heq⟩ := List.mem_map.mp hhead
      cases heq
      exact ⟨[], s, t, b, .refl s, rfl, ht, hal, Option.mem_toList.mp hslot⟩
    · obtain ⟨l₁, s₁, t', b', hreach, hcur, ht', hal', hslot⟩ := ih hrest
      exact ⟨_, s₁, t', b', .step ht hal hreach, hcur, ht', hal', hslot⟩

/-- A node is opened below the root, whose name is empty. -/
lemma Reaches.root (h : Reaches layout blocks s l s') (hs : s.path = [] ∨ s.path.head? = some []) :
    s'.path = [] ∨ s'.path.head? = some [] := by
  induction h with
  | refl => exact hs
  | @step s s' t b l ht hal htail ih =>
    refine ih ?_
    rw [Progress.next_path]
    cases t with
    | beginNode name =>
      right
      rw [pathAfter]
      rcases hs with hnil | hhead
      · rw [hnil, (hal hnil).2]
        rfl
      · rw [List.head?_append, hhead]
        rfl
    | endNode =>
      rw [pathAfter]
      rcases hs with hnil | hhead
      · exact .inl (by rw [hnil]; rfl)
      · cases hpath : s.path with
        | nil => exact .inl rfl
        | cons x path =>
          rw [hpath] at hhead
          cases path with
          | nil => exact .inl rfl
          | cons y path => exact .inr hhead
    | prop | nop | finish => exact hs

/-- A slot that is filled is a site of the buffer at the start. -/
lemma Reaches.site (h : Reaches layout blocks s l s') (hs : s.Ready blocks) (hpath : s.path = [])
    (hmem : (a, slot) ∈ sitesOf s.path l) :
    ∃ value, value.length = slot.length ∧ Site (blocks.blob s.mem) s.cursor slot a value := by
  obtain ⟨l₁, s₁, t, b, hreach, rfl, ht, hal, hslot⟩ := h.at_site hmem
  obtain ⟨nameOff, value, rfl, hlen, hnode⟩ := exists_prop_of_siteOf hslot
  have hroot := hreach.root (.inl hpath)
  have hpath₁ := hreach.path_eq
  have hnested := hreach.nested
  rw [hpath] at hpath₁ hnested
  obtain ⟨x, node, hpair⟩ := List.length_eq_two.mp hlen
  rw [hpair] at hroot hnode
  have hx : x = [] := by simpa using hroot
  rw [hx] at hpair
  refine ⟨value, (hal.2 slot hslot).2, l₁, node, nameOff, b, hreach.tokens hs, hnested, ?_,
    hnode.symm, ht.congr ⟨rfl, rfl, rfl, ?_⟩ ?_⟩
  · rw [← hpath₁, hpair]
  · exact fun i hlo hhi => (hreach.names hs i hlo hhi).symm
  · exact fun i hlo _ => (hreach.mem_eq_of_le hlo).symm

/-- There is no end token among nested tokens. -/
lemma Nested.ne_finish (h : Nested path l) {p : ℕ × Token} (hp : p ∈ l) : p.2 ≠ .finish := by
  induction l generalizing path with
  | nil => cases hp
  | cons q l ih =>
    obtain ⟨a, t⟩ := q
    rcases List.mem_cons.mp hp with rfl | hp
    · exact h.1
    · exact ih h.2.2 hp

/-- A site is one of the slots in front of the end token. -/
lemma Site.mem_sitesOf {B : Blob} {start : ℕ} {value : List UInt8} (h : Site B start slot a value)
    (htok : Tokens B start l e) (hfin : TokenAt B e .finish b) : (a, slot) ∈ sitesOf [] l := by
  obtain ⟨l₁, node, nameOff, c, htok₁, hnested, hpath, hnode, ht⟩ := h
  have hlong := Chain.concat (R := TokenAt B) htok hfin
  have hlong₁ := Chain.concat (R := TokenAt B) htok₁ ht
  -- the tokens up to the site do not reach the end token
  have hpre : l₁ ++ [(a, .prop nameOff slot.name value)] <+: l ++ [(e, .finish)] := by
    rcases Chain.prefix_or_prefix (R := TokenAt B) (fun _ _ _ _ _ => TokenAt.unique) hlong₁ hlong
      with hpre | hpre
    · exact hpre
    · have hmem := hpre.subset (List.mem_append_right l (List.mem_singleton_self (e, Token.finish)))
      rcases List.mem_append.mp hmem with hmem | hmem
      · exact absurd rfl (hnested.ne_finish hmem)
      · cases List.mem_singleton.mp hmem
  obtain ⟨rest, hrest⟩ := hpre
  have hsite : siteOf (pathOf [] l₁) (.prop nameOff slot.name value) = some slot := by
    refine slotOf_eq_some (by rw [hpath]; rfl) ?_
    rw [hpath]
    exact hnode.symm
  have hmem : (a, slot) ∈ sitesOf [] (l ++ [(e, .finish)]) := by
    rw [← hrest, List.append_assoc, sitesOf_append]
    refine List.mem_append_right _ ?_
    rw [List.cons_append, sitesOf, hsite]
    exact List.mem_append_left _ (by simp)
  rw [sitesOf_append] at hmem
  rcases List.mem_append.mp hmem with hmem | hmem
  · exact hmem
  · cases hmem

/-! ## A run that succeeds -/

/-- Nested tokens that close everything, and an end token. -/
lemma Nested.balanced (h : Nested path l) (hpath : pathOf path l = []) :
    Balanced path (l ++ [(e, .finish)]) := by
  induction l generalizing path with
  | nil => exact ⟨hpath, rfl⟩
  | cons p l ih =>
    obtain ⟨a, t⟩ := p
    exact Balanced.cons h.1 h.2.1 (ih h.2.2 hpath)

/-- What a run of the patcher that returns true has done: `l` are the tokens in front of the end
token, which is at `e`. -/
structure Effect (layout : GuestLayout) (m m' : Memory) (f : HeaderField → ℕ)
    (l : List (ℕ × Token)) (e : ℕ) : Prop where
  /-- The tokens of the buffer. -/
  tokens : Tokens ((headerBlocks f).blob m) (f .structOff) l e
  /-- The end token of the buffer. -/
  finish : TokenAt ((headerBlocks f).blob m) e .finish (e + 4)
  /-- The tokens are nested. -/
  nested : Nested [] l
  /-- The tokens close every node. -/
  closed : pathOf [] l = []
  /-- Every slot occurs once. -/
  nodup : ((sitesOf [] l).map Prod.snd).Nodup
  /-- Every slot occurs. -/
  complete : ∀ slot, ∃ a, (a, slot) ∈ sitesOf [] l
  /-- The slots are sites. -/
  site : ∀ a slot, (a, slot) ∈ sitesOf [] l → ∃ value, value.length = slot.length ∧
    Site ((headerBlocks f).blob m) (f .structOff) slot a value
  /-- The slots have their values. -/
  written : ∀ a slot, (a, slot) ∈ sitesOf [] l → m'.HasBytes (a + 12) (slot.bytes layout)
  /-- Nothing else has changed. -/
  frame : ∀ i, (∀ a slot, (a, slot) ∈ sitesOf [] l → ¬ (a + 12 ≤ i ∧ i < a + 12 + slot.length)) →
    m' i = m i
  /-- The strings block has not changed. -/
  names : AgreeOn m m' (f .stringsOff) (f .stringsOff + f .sizeStrings)
  /-- The header has not changed. -/
  header : AgreeOn m m' 0 fdtHeaderSize
  /-- The tokens afterwards. -/
  filled : Tokens ((headerBlocks f).blob m') (f .structOff) (fill layout [] l) e
  /-- The end token afterwards. -/
  finish' : TokenAt ((headerBlocks f).blob m') e .finish (e + 4)

variable {m m' : Memory} {size : ℕ} {f : HeaderField → ℕ}

/-- There is one site for each slot. -/
lemma Effect.existsUnique_site (h : Effect layout m m' f l e) (slot : Slot) :
    ∃! a, ∃ value, Site ((headerBlocks f).blob m) (f .structOff) slot a value := by
  obtain ⟨a, hmem⟩ := h.complete slot
  obtain ⟨value, -, hsite⟩ := h.site a slot hmem
  refine ⟨a, ⟨value, hsite⟩, ?_⟩
  rintro a' ⟨value', hsite'⟩
  exact congrArg Prod.fst
    (List.inj_on_of_nodup_map h.nodup (hsite'.mem_sitesOf h.tokens h.finish) hmem rfl)

/-- A site has the length of its slot, and the value of the layout is in it. -/
lemma Effect.of_site (h : Effect layout m m' f l e) {value : List UInt8}
    (hsite : Site ((headerBlocks f).blob m) (f .structOff) slot a value) :
    value.length = slot.length ∧ m'.HasBytes (a + 12) (slot.bytes layout) := by
  have hmem := hsite.mem_sitesOf h.tokens h.finish
  refine ⟨?_, h.written a slot hmem⟩
  obtain ⟨value', hlen, l', node', nameOff', b', -, -, -, -, ht'⟩ := h.site a slot hmem
  obtain ⟨l'', node'', nameOff'', b'', -, -, -, -, ht''⟩ := hsite
  obtain ⟨heq, -⟩ := ht''.unique ht'
  cases heq
  exact hlen

/-- The value of a site lies in the structure block. -/
lemma Site.le {B : Blob} {start : ℕ} {value : List UInt8} (h : Site B start slot a value) :
    a + 12 + value.length ≤ B.structEnd := by
  obtain ⟨l, node, nameOff, b, -, -, -, -, ht⟩ := h
  cases ht with
  | prop _ _ _ _ _ hend => exact hend

/-- The structure block lies in the buffer. -/
lemma PatchHeader.structEnd_le (h : PatchHeader m size f) :
    f .structOff + f .sizeStructs ≤ size := by
  have hle := h.total_le
  obtain ⟨-, hstruct, hstructSize⟩ := h.structs
  omega

/-- The state of the patcher when the header has been read. -/
def Progress.start (f : HeaderField → ℕ) (m : Memory) : Progress := ⟨[], false, [], m, f .structOff⟩

/-- The patcher can start. -/
lemma PatchHeader.ready (h : PatchHeader m size f) (hread : ∀ i < size, (m i).isSome) :
    (Progress.start f m).Ready (headerBlocks f) := by
  have htotal := h.lt .totalSize
  have hle := h.total_le
  obtain ⟨-, hstruct, hstructSize⟩ := h.structs
  obtain ⟨-, hstrings, hstringsSize⟩ := h.strings
  have hend : f .structOff + f .sizeStructs ≤ f .totalSize := by omega
  have hend' : f .stringsOff + f .sizeStrings ≤ f .totalSize := by omega
  refine ⟨hend.trans_lt htotal, hend'.trans_lt htotal, h.disjoint.symm, ?_, ?_, Nat.zero_le _⟩
  · exact fun i _ hi => hread i (hi.trans_le (hend.trans hle))
  · exact fun i _ hi => hread i (hi.trans_le (hend'.trans hle))

/-- The run after the header has been read. -/
lemma run_eq_loop (hsize : layout.dtbSize = size)
    (hheader : readHeader m size = .ok (some (headerBlocks f))) :
    run layout m = loop loopFuel ((Progress.start f m).patcher layout (headerBlocks f)) := by
  rw [run, hsize, hheader]
  rfl

/-- Where the patcher returns true, it has had its effect. -/
lemma Reaches.effect (h : Reaches layout (headerBlocks f) (Progress.start f m) l s')
    (hheader : PatchHeader m size f) (hread : ∀ i < size, (m i).isSome)
    (hfin : TokenAt ((headerBlocks f).blob s'.mem) s'.cursor .finish b) (hdone : s'.Done) :
    Effect layout m s'.mem f l s'.cursor := by
  have hs := hheader.ready hread
  obtain ⟨-, hpath, hfound⟩ := hdone
  have hfound_eq := h.found_eq
  rw [Progress.start, List.append_nil] at hfound_eq
  obtain rfl : b = s'.cursor + 4 := by
    cases hfin
    rfl
  have hstruct : fdtHeaderSize ≤ f .structOff := hheader.structs.1
  refine ⟨h.tokens hs, hfin.congr ⟨rfl, rfl, rfl, ?_⟩ ?_, h.nested, ?_, ?_, ?_, ?_, ?_, ?_, ?_, ?_,
    ?_, hfin⟩
  · exact fun i hlo hhi => (h.names hs i hlo hhi).symm
  · exact fun i hlo _ => (h.mem_eq_of_le hlo).symm
  · exact h.path_eq.symm.trans hpath
  · have hnodup := h.nodup List.nodup_nil
    rwa [hfound_eq, List.nodup_reverse] at hnodup
  · intro slot
    have hmem := hfound slot slot.mem_all
    rw [hfound_eq, List.mem_reverse] at hmem
    obtain ⟨p, hp, rfl⟩ := List.mem_map.mp hmem
    exact ⟨p.1, hp⟩
  · exact fun a slot hmem => h.site hs rfl hmem
  · exact fun a slot hmem => h.hasBytes hmem
  · exact fun i hi => h.mem_eq_of_not_site hi
  · exact h.names hs
  · exact fun i _ hi => h.mem_eq (.inl (hi.trans_le hstruct))
  · have hready : Progress.Ready (headerBlocks f) { Progress.start f m with mem := s'.mem } :=
      (hheader.congr fun i _ hi => h.mem_eq (.inl (hi.trans_le hstruct))).ready
        fun i hi => h.isSome (hread i hi)
    exact (h.again hs).tokens hready

/-- A run of the patcher: it ends, it changes only sites and keeps every byte readable, and where it
returns true it has had its effect and has none a second time. -/
lemma run_cases (hsize : layout.dtbSize = size) (hread : ∀ i < size, (m i).isSome) :
    ∃ ok m', run layout m = .ok (ok, m') ∧
      (∀ i, (∀ f, PatchHeader m size f → ∀ slot a value,
          Site ((headerBlocks f).blob m) (f .structOff) slot a value →
          ¬ (a + 12 ≤ i ∧ i < a + 12 + value.length)) → m' i = m i) ∧
      (∀ i, (m i).isSome → (m' i).isSome) ∧
      (ok = true → ∃ f l e, PatchHeader m size f ∧ Effect layout m m' f l e ∧
        run layout m' = .ok (true, m')) := by
  rcases readHeader_cases hread with ⟨f, hf, hheader⟩ | ⟨hheader, -⟩
  · have hs := hf.ready hread
    have hrun := run_eq_loop hsize hheader
    have hfuel : (headerBlocks f).structEnd < (Progress.start f m).cursor + loopFuel := by
      have hlt := hs.structEnd_lt
      rw [loopFuel]
      omega
    obtain ⟨l, s', hreach, hloop⟩ := loop_cases layout hs (by rw [loopFuel]; norm_num) hfuel
    have hframe : ∀ i, (∀ f, PatchHeader m size f → ∀ slot a value,
        Site ((headerBlocks f).blob m) (f .structOff) slot a value →
        ¬ (a + 12 ≤ i ∧ i < a + 12 + value.length)) → s'.mem i = m i := by
      intro i hi
      refine hreach.mem_eq_of_not_site fun a slot hmem => ?_
      obtain ⟨value, hlen, hsite⟩ := hreach.site hs rfl hmem
      rw [← hlen]
      exact hi f hf slot a value hsite
    rcases hloop with ⟨⟨b, hfin⟩, hloop⟩ | hloop
    · refine ⟨decide s'.Done, s'.mem, hrun.trans hloop, hframe, fun _ => hreach.isSome,
        fun hdone => ?_⟩
      rw [decide_eq_true_eq] at hdone
      have heffect := hreach.effect hf hread hfin hdone
      refine ⟨f, l, s'.cursor, hf, heffect, ?_⟩
      -- the second run takes the same way
      have hf' := hf.congr heffect.header
      have hread' : ∀ i < size, (s'.mem i).isSome := fun i hi => hreach.isSome (hread i hi)
      have hheader' : readHeader s'.mem size = .ok (some (headerBlocks f)) := by
        rcases readHeader_cases hread' with ⟨f'', hf'', hheader''⟩ | ⟨-, hno⟩
        · rw [hheader'', hf''.unique hf']
        · exact absurd hf' (hno f)
      have hlen := length_le_of_tokens heffect.filled
      have hend : s'.cursor + 4 ≤ (headerBlocks f).structEnd := hfin.add_four_le
      have hlt := hs.structEnd_lt
      have hloop' := loop_of_reaches (hreach.again hs) (hf'.ready hread') hfin
        (show (fill layout [] l).length < loopFuel by rw [loopFuel]; omega)
      rw [run_eq_loop hsize hheader']
      exact hloop'.trans (by rw [decide_eq_true hdone])
    · exact ⟨false, s'.mem, hrun.trans hloop, hframe, fun _ => hreach.isSome, by simp⟩
  · refine ⟨false, m, ?_, fun i _ => rfl, fun _ => id, by simp⟩
    rw [run, hsize, hheader]
    rfl

/-- `DtbPatcher::Run` on a buffer of any content: it ends, has accessed nothing outside of the
buffer, and has changed only the values of the properties that it fills.  When it returns true,
there is exactly one property for each slot, the value of the layout is in it, the header, the
strings and the tokens are the same apart from these values, and a second run returns true and
changes nothing. -/
theorem run_frame_and_effect (layout : GuestLayout) (bytes : List UInt8)
    (hsize : layout.dtbSize = bytes.length) :
    ∃ ok m', run layout (fun i => bytes[i]?) = .ok (ok, m') ∧
      (∀ i, (∀ f, PatchHeader (fun i => bytes[i]?) bytes.length f → ∀ slot a value,
          Site ((headerBlocks f).blob fun i => bytes[i]?) (f .structOff) slot a value →
          ¬ (a + 12 ≤ i ∧ i < a + 12 + value.length)) → m' i = bytes[i]?) ∧
      (ok = true → ∃ f l e, PatchHeader (fun i => bytes[i]?) bytes.length f ∧
        PatchHeader m' bytes.length f ∧
        AgreeOn (fun i => bytes[i]?) m' (f .stringsOff) (f .stringsOff + f .sizeStrings) ∧
        Tokens ((headerBlocks f).blob fun i => bytes[i]?) (f .structOff)
          (l ++ [(e, .finish)]) (e + 4) ∧
        Balanced [] (l ++ [(e, .finish)]) ∧
        Tokens ((headerBlocks f).blob m') (f .structOff)
          (fill layout [] l ++ [(e, .finish)]) (e + 4) ∧
        (∀ slot, ∃! a, ∃ value,
          Site ((headerBlocks f).blob fun i => bytes[i]?) (f .structOff) slot a value) ∧
        (∀ slot a value,
          Site ((headerBlocks f).blob fun i => bytes[i]?) (f .structOff) slot a value →
          value.length = slot.length ∧ m'.HasBytes (a + 12) (slot.bytes layout)) ∧
        run layout m' = .ok (true, m')) := by
  have hread : ∀ i < bytes.length, (bytes[i]?).isSome := fun i hi => by simp [hi]
  obtain ⟨ok, m', hrun, hframe, -, htrue⟩ := run_cases (m := fun i => bytes[i]?) hsize hread
  refine ⟨ok, m', hrun, hframe, fun hok => ?_⟩
  obtain ⟨f, l, e, hf, heffect, hagain⟩ := htrue hok
  exact ⟨f, l, e, hf, hf.congr heffect.header, heffect.names,
    Chain.concat (R := TokenAt _) heffect.tokens heffect.finish,
    heffect.nested.balanced heffect.closed,
    Chain.concat (R := TokenAt _) heffect.filled heffect.finish', heffect.existsUnique_site,
    fun _ _ _ => heffect.of_site, hagain⟩

/-- A guest tree with a memory node and the two placeholders of the initial RAM disk. -/
def guestTree : List UInt8 :=
  blobBytes 0
    (beginNodeBytes [] ++ beginNodeBytes (ascii "memory@40000000") ++
      propBytes 0 (List.replicate 16 0) ++ endNodeBytes ++ beginNodeBytes (ascii "chosen") ++
      propBytes 4 (List.replicate 8 0) ++ propBytes 23 (List.replicate 8 0) ++ endNodeBytes ++
      endNodeBytes ++ finishBytes)
    (ascii "reg" ++ [0] ++ ascii "linux,initrd-start" ++ [0] ++ ascii "linux,initrd-end" ++ [0])

/-- A layout for the guest tree. -/
def guestTreeLayout : GuestLayout where
  dtbSize := guestTree.length
  initrdIpa := 0x4FE00000
  initrdSize := 0x1000

/-- The guest tree is patched, and patching it again changes nothing. -/
theorem run_frame_and_effect_guestTree :
    ∃ m', run guestTreeLayout (fun i => guestTree[i]?) = .ok (true, m') ∧
      run guestTreeLayout m' = .ok (true, m') := by
  obtain ⟨ok, m', hrun, -, htrue⟩ := run_frame_and_effect guestTreeLayout guestTree rfl
  have hok : (run guestTreeLayout fun i => guestTree[i]?).map Prod.fst = .ok true := by
    decide +kernel
  rw [hrun] at hok
  obtain rfl : ok = true := by simpa [Except.map] using hok
  obtain ⟨f, l, e, -, -, -, -, -, -, -, -, hagain⟩ := htrue rfl
  exact ⟨m', hrun, hagain⟩

end BootLoader

end HyperBerry
