import HyperBerry.DeviceTree.Content

/-!
# The boot archive in a tree

What `ParseMemoryMap` says about the guest archive, said about the tree and not about its bytes: the
archive lies between the addresses `linux,initrd-start` and `linux,initrd-end` of `/chosen`.  Only
the properties of the depth-1 nodes that are named `chosen` count.
-/

namespace HyperBerry

namespace DeviceTree

open Memory Walk PathProp

/-- A blob whose aligned structure block tells the events, with NOPs anywhere. -/
def Tells (m : Memory) (dtb : ℕ) (es : List Event) : Prop :=
  ∃ f l last, ValidHeader m dtb f ∧ 4 ∣ dtb + f .structOff ∧
    Tokens (blobOf m dtb f) (dtb + f .structOff) (l ++ [(last, .finish)])
      (blobOf m dtb f).structEnd ∧
    (∀ p ∈ l, p.2 ≠ .finish) ∧ eventsIn l = es

/-- A memory in which tokens are laid out tells their events. -/
lemma tells_layOut {ts : List Token} {strings : List UInt8} {es : List Event}
    (h : layOutField ts strings .totalSize < 2 ^ 32) (hnamed : ∀ t ∈ ts, t.NamedIn strings)
    (hfin : ∀ t ∈ ts, t ≠ .finish) (hevents : ts.filterMap Token.event = es) :
    Tells (fun a => some (layOut ts strings a)) 0x1000 es := by
  obtain ⟨f, l, last, hv, -, hrest⟩ := exists_tokens_layOut h hnamed hfin hevents
  exact ⟨f, l, last, hv, hrest⟩

/-! ## The archive -/

/-- The properties directly in the depth-1 nodes named `chosen`, below a root that holds the given
content. -/
def chosenProps (content : List Content) : List Property :=
  content.flatMap fun
    | .prop _ => []
    | .node name inner => if name = kChosen then directProps inner else []

/-- An address of four or eight bytes; the last one counts. -/
def lastAddress (name : Name) (props : List Property) : Option ℕ :=
  (props.reverse.find? fun p =>
    p.name = name ∧ (p.value.length = 4 ∨ p.value.length = 8)).map fun p => beNat p.value

/-- The base and the size of the archive that the properties give. -/
def archiveOf (props : List Property) : ℕ × ℕ :=
  match lastAddress kInitrdStart props, lastAddress kInitrdEnd props with
  | some first, some last => if first < last then (first, last - first) else (0, 0)
  | _, _ => (0, 0)

/-! ## The properties of `/chosen` -/

/-- A property directly in a depth-1 node named `chosen`. -/
def AtChosen (p : PathProp) : Prop := InNode kChosen p.path ∧ p.path.length = 2

instance : DecidablePred AtChosen := fun _ => inferInstanceAs (Decidable (_ ∧ _))

variable {root : Name} {content : List Content} {ps : List PathProp}

/-- The properties of `/chosen` are those of the depth-1 nodes with that name. -/
lemma chosenProps_eq (content : List Content) :
    chosenProps content =
      ((depthOneProps content).filter fun q => q.1 = kChosen).map Prod.snd := by
  induction content with
  | nil => rfl
  | cons c content ih =>
    cases c with
    | prop p => exact ih
    | node name inner =>
      have hcons : chosenProps (.node name inner :: content) =
          (if name = kChosen then directProps inner else []) ++ chosenProps content :=
        List.flatMap_cons
      have hdepth : depthOneProps (.node name inner :: content) =
          (directProps inner).map (fun p => (name, p)) ++ depthOneProps content :=
        List.flatMap_cons
      rw [hcons, hdepth, ih, List.filter_append, List.map_append, List.filter_map]
      by_cases hname : name = kChosen
      · simp [hname, Function.comp_def]
      · simp [hname, Function.comp_def]

/-- The properties of `/chosen` among all those of a tree. -/
lemma filter_atChosen (root : Name) (content : List Content) :
    (contentPathProps [root] content).filter (fun p => AtChosen p) =
      (chosenProps content).map fun p => ⟨[root, kChosen], p.name, p.value⟩ := by
  have hsplit (ps : List PathProp) : ps.filter (fun p => AtChosen p) =
      (ps.filter fun p => p.path.length = 2).filter fun p => InNode kChosen p.path := by
    rw [List.filter_filter]
    refine List.filter_congr fun p _ => ?_
    rw [Bool.eq_iff_iff, Bool.and_eq_true, decide_eq_true_eq, decide_eq_true_eq, decide_eq_true_eq]
    exact Iff.rfl
  rw [hsplit, filter_length_two, List.filter_map, chosenProps_eq, List.map_map]
  have hfilter : (fun p : PathProp => decide (InNode kChosen p.path)) ∘
      (fun q : Name × Property => (⟨[root, q.1], q.2.name, q.2.value⟩ : PathProp)) =
      fun q => decide (q.1 = kChosen) := by
    funext q
    simp [InNode]
  rw [hfilter]
  refine List.map_congr_left fun q hq => ?_
  rw [← of_decide_eq_true (List.mem_filter.mp hq).2]
  rfl

/-- The property that `ParseMemoryMap` takes is the last one of its name. -/
lemma chosenProp_eq (name : Name) (root : Name) (content : List Content) :
    (chosenProp name (contentPathProps [root] content)).map (fun p => beNat p.value) =
      lastAddress name (chosenProps content) := by
  have hfind (ps : List PathProp) : chosenProp name ps =
      (ps.filter fun p => AtChosen p).reverse.find? fun p =>
        p.name = name ∧ (p.value.length = 4 ∨ p.value.length = 8) := by
    rw [← List.filter_reverse, List.find?_filter, chosenProp]
    congr 1
    funext p
    rw [decide_eq_decide, decide_eq_true_eq, decide_eq_true_eq]
    exact ⟨fun h => ⟨⟨h.2.1, h.2.2.1⟩, h.1, h.2.2.2⟩, fun h => ⟨h.2.1, h.1.1, h.1.2, h.2.2⟩⟩
  rw [hfind, filter_atChosen, ← List.map_reverse, List.find?_map, Option.map_map]
  rfl

/-- An address of `/chosen` fits into 64 bits. -/
lemma lastAddress_lt {name : Name} {props : List Property} {a : ℕ}
    (h : lastAddress name props = some a) : a < 2 ^ 64 := by
  obtain ⟨p, hp, rfl⟩ := Option.map_eq_some_iff.mp h
  have hlength : p.name = name ∧ (p.value.length = 4 ∨ p.value.length = 8) := by
    simpa using List.find?_some hp
  refine (beNat_lt p.value).trans_le ?_
  rcases hlength.2 with h4 | h8
  · rw [h4]
    norm_num
  · rw [h8]
    norm_num

/-- The archive of the map at the end token. -/
lemma archive_of_parseEnd {s : MemoryParseState} {map map' : MemoryMap}
    (h : parseEnd s map = .ok map') :
    ((s.hasInitrdStart = true ∧ s.hasInitrdEnd = true ∧ s.initrdStart < s.initrdEnd) ∧
      map'.cpioArchiveBase = UInt64.ofNat s.initrdStart ∧
      map'.cpioArchiveSize = UInt64.ofNat (s.initrdEnd - s.initrdStart)) ∨
    (¬ (s.hasInitrdStart = true ∧ s.hasInitrdEnd = true ∧ s.initrdStart < s.initrdEnd) ∧
      map'.cpioArchiveBase = map.cpioArchiveBase ∧ map'.cpioArchiveSize = map.cpioArchiveSize) := by
  rw [parseEnd] at h
  split at h
  case isTrue => cases h
  case isFalse =>
    split at h
    case isTrue hboth =>
      cases h
      exact .inl ⟨hboth, rfl, rfl⟩
    case isFalse hboth =>
      cases h
      exact .inr ⟨hboth, rfl, rfl⟩

/-- The archive of a map that was filled from the properties of a tree. -/
lemma archive_of_memoryMapOf {total dtb : ℕ} {map : MemoryMap}
    (h : memoryMapOf dtb total (contentPathProps [root] content) = .ok map) :
    (map.cpioArchiveBase.toNat, map.cpioArchiveSize.toNat) = archiveOf (chosenProps content) := by
  have hstart := chosenProp_eq kInitrdStart root content
  have hend := chosenProp_eq kInitrdEnd root content
  rw [archiveOf, ← hstart, ← hend]
  have harchive := archive_of_parseEnd h
  simp only [stateOf] at harchive
  rcases harchive with ⟨⟨hfirst, hlast, hlt⟩, hbase, hsize⟩ | ⟨hno, hbase, hsize⟩
  · obtain ⟨p, hp⟩ := Option.isSome_iff_exists.mp hfirst
    obtain ⟨q, hq⟩ := Option.isSome_iff_exists.mp hlast
    rw [hp, Option.map_some] at hstart
    rw [hq, Option.map_some] at hend
    have hp64 := lastAddress_lt hstart.symm
    have hq64 := lastAddress_lt hend.symm
    rw [hp, hq, Option.elim_some, Option.elim_some] at hlt hsize
    rw [hp, Option.elim_some] at hbase
    rw [hp, hq, hbase, hsize, UInt64.toNat_ofNat_of_lt' hp64,
      UInt64.toNat_ofNat_of_lt' ((Nat.sub_le _ _).trans_lt hq64)]
    exact (if_pos hlt).symm
  · rw [hbase, hsize]
    cases hp : chosenProp kInitrdStart (contentPathProps [root] content) with
    | none => rfl
    | some p =>
      cases hq : chosenProp kInitrdEnd (contentPathProps [root] content) with
      | none => rfl
      | some q =>
        rw [hp, hq] at hno
        exact (if_neg fun hlt => hno ⟨rfl, rfl, hlt⟩).symm

/-- The archive in the map that `ParseMemoryMap` returns. -/
lemma archive_eq {m : Memory} {dtb : ℕ} {map : MemoryMap}
    (h : Tells m dtb (Content.node root content).events)
    (hmap : (parseMemoryMap m dtb).result = .ok map) :
    (map.cpioArchiveBase.toNat, map.cpioArchiveSize.toNat) = archiveOf (chosenProps content) := by
  obtain ⟨f, l, last, hv, hal, hl, hfin, hevents⟩ := h
  have hcloses := closes_content [] [] (Content.node root content)
  have hprops := propsAt_content [] [] (Content.node root content)
  rw [List.append_nil, ← hevents] at hcloses hprops
  have hbal : Balanced [] (l ++ [(last, .finish)]) := balanced_of_closes hfin (hcloses.mpr rfl)
  by_cases hnest : nesting [] (l ++ [(last, .finish)]) ≤ maxDepth
  · have hpath : propsOf [] (l ++ [(last, .finish)]) = contentPathProps [root] content := by
      rw [propsOf_eq_propsAt, eventsIn, List.filterMap_append, ← eventsIn]
      exact (congrArg _ (List.append_nil _)).trans (hprops.trans (List.append_nil _))
    rw [parseMemoryMap_eq hv hl hbal hnest (.inl hal), hpath] at hmap
    exact archive_of_memoryMapOf hmap
  · -- Nodes that are nested too deep end in a panic.
    have hpanic := validateHeader_of_deep hv hl hbal (by omega) hal
    rw [parseMemoryMap, hpanic, Run.after_error] at hmap
    cases hmap

/-- The archive depends on the properties of each of the two names alone. -/
lemma archiveOf_congr {props props' : List Property}
    (h : ∀ name ∈ [kInitrdStart, kInitrdEnd],
      props'.filter (fun p => p.name = name) = props.filter fun p => p.name = name) :
    archiveOf props' = archiveOf props := by
  have hlast {name : Name} (hname : name ∈ [kInitrdStart, kInitrdEnd]) :
      lastAddress name props' = lastAddress name props := by
    have hfilter (props : List Property) : lastAddress name props =
        ((props.filter fun p => p.name = name).reverse.find? fun p =>
          p.value.length = 4 ∨ p.value.length = 8).map fun p => beNat p.value := by
      rw [← List.filter_reverse, List.find?_filter, lastAddress]
      simp only [Bool.decide_and, decide_eq_true_eq]
    rw [hfilter, hfilter, h name hname]
  rw [archiveOf, archiveOf, hlast (by simp), hlast (by simp)]

/-- A blob that holds a tree with a single root, on which `ParseMemoryMap` returns: the archive is
that of the properties of `/chosen`, and another blob with the same properties of either name there,
in whatever order and whatever else it holds, gives the same archive. -/
theorem parseMemoryMap_archive (m : Memory) (dtb : ℕ) (root : Name) (content : List Content)
    (map : MemoryMap) (h : Tells m dtb (Content.node root content).events)
    (hmap : (parseMemoryMap m dtb).result = .ok map) :
    (map.cpioArchiveBase.toNat, map.cpioArchiveSize.toNat) = archiveOf (chosenProps content) ∧
    ∀ (m' : Memory) (dtb' : ℕ) (root' : Name) (content' : List Content) (map' : MemoryMap),
      Tells m' dtb' (Content.node root' content').events →
      (parseMemoryMap m' dtb').result = .ok map' →
      (∀ name ∈ [kInitrdStart, kInitrdEnd],
        (chosenProps content').filter (fun p => p.name = name) =
          (chosenProps content).filter fun p => p.name = name) →
      map'.cpioArchiveBase = map.cpioArchiveBase ∧ map'.cpioArchiveSize = map.cpioArchiveSize := by
  refine ⟨archive_eq h hmap, fun m' dtb' root' content' map' h' hmap' hsame => ?_⟩
  have heq := (archive_eq h' hmap').trans ((archiveOf_congr hsame).trans (archive_eq h hmap).symm)
  exact ⟨UInt64.toNat_inj.mp (congrArg Prod.fst heq), UInt64.toNat_inj.mp (congrArg Prod.snd heq)⟩

/-- A tree with the archive in its last `chosen`, behind a subnode that has addresses of its own. -/
def archiveTree : List Content :=
  [.node (ascii "memory@0") [.prop ⟨kReg, twoCells (0, 0x3b400000)⟩],
    .node kChosen
      [.prop ⟨kInitrdStart, beBytes 4 0x100⟩,
        .node (ascii "framebuffer") [.prop ⟨kInitrdEnd, beBytes 4 0x200⟩],
        .prop ⟨kInitrdEnd, beBytes 8 0x3000⟩, .prop ⟨kInitrdStart, beBytes 4 0x1000⟩]]

/-- The strings block of the tree. -/
def archiveStrings : List UInt8 := [kReg, kInitrdStart, kInitrdEnd].flatMap (· ++ [0])

/-- The tokens of the tree, with two NOPs. -/
def archiveTokens : List Token :=
  [.beginNode [], .beginNode (ascii "memory@0"), .prop 0 kReg (twoCells (0, 0x3b400000)), .endNode,
    .nop, .beginNode kChosen, .prop 4 kInitrdStart (beBytes 4 0x100),
    .beginNode (ascii "framebuffer"), .prop 23 kInitrdEnd (beBytes 4 0x200), .endNode, .nop,
    .prop 23 kInitrdEnd (beBytes 8 0x3000), .prop 4 kInitrdStart (beBytes 4 0x1000), .endNode,
    .endNode]

/-- The archive of the tree is found. -/
theorem parseMemoryMap_archive_tree :
    ∃ map, (parseMemoryMap (fun a => some (layOut archiveTokens archiveStrings a)) 0x1000).result =
        .ok map ∧ (map.cpioArchiveBase.toNat, map.cpioArchiveSize.toNat) = (0x1000, 0x2000) := by
  have htells : Tells (fun a => some (layOut archiveTokens archiveStrings a)) 0x1000
      (Content.node [] archiveTree).events :=
    tells_layOut (by decide +kernel) (by decide +kernel) (by decide) (by decide +kernel)
  have hok (r : Except Halt MemoryMap) (h : r.isOk = true) : ∃ map, r = .ok map := by
    cases r with
    | error e => cases h
    | ok map => exact ⟨map, rfl⟩
  obtain ⟨map, hmap⟩ := hok (parseMemoryMap (fun a =>
    some (layOut archiveTokens archiveStrings a)) 0x1000).result (by decide +kernel)
  refine ⟨map, hmap, (parseMemoryMap_archive _ _ _ archiveTree map htells hmap).1.trans ?_⟩
  decide +kernel

end DeviceTree

end HyperBerry
