import HyperBerry.DeviceTree.Reading

/-!
# The memory map as a function of the properties

`ParseMemoryMap` keeps flags about the nodes that are open and fills the map as it meets properties.
Here that is said without a loop: the state of the loop is a function of the path of the open nodes
and of the properties met so far, each with the path of its node, and the map that is returned is a
function of all properties of the structure block in their order.
-/

namespace HyperBerry

namespace DeviceTree

open Memory Walk

/-- A property with the path of its node, the root first. -/
structure PathProp where
  /-- The names of the node and of those around it. -/
  path : List Name
  /-- The name of the property. -/
  name : Name
  /-- Its data. -/
  value : List UInt8
deriving DecidableEq

/-- The property that a token is, below the given path. -/
def propOf (path : List Name) : Token → List PathProp
  | .prop _ name value => [⟨path, name, value⟩]
  | _ => []

/-- The properties among the tokens, in their order. -/
def propsOf (path : List Name) : List (ℕ × Token) → List PathProp
  | [] => []
  | (_, t) :: l => propOf path t ++ propsOf (pathAfter path t) l

/-- The depth-1 node around a path begins with `memory`. -/
def InMemory (path : List Name) : Prop := ∃ node ∈ path[1]?, kMemory <+: node

/-- The depth-1 node around a path has the given name. -/
def InNode (name : Name) (path : List Name) : Prop := path[1]? = some name

/-- The path leads through one of the firmware nodes of `/reserved-memory`. -/
def InAtf (path : List Name) : Prop :=
  InNode kReservedMemory path ∧ ∃ node ∈ path[2]?, node ∈ kAtfNames

instance (path : List Name) : Decidable (InMemory path) :=
  inferInstanceAs (Decidable (∃ node ∈ path[1]?, _))

instance (name : Name) (path : List Name) : Decidable (InNode name path) :=
  inferInstanceAs (Decidable (_ = _))

instance (path : List Name) : Decidable (InAtf path) :=
  inferInstanceAs (Decidable (_ ∧ ∃ node ∈ path[2]?, _))

namespace PathProp

/-- A `reg` that has room for a two-cell address and a two-cell size. -/
def IsReg (p : PathProp) : Prop := p.name = kReg ∧ 16 ≤ p.value.length

/-- A `reg` that `ParseMemoryMap` takes for the RAM. -/
def IsMemoryReg (p : PathProp) : Prop := p.IsReg ∧ InMemory p.path

/-- A `reg` that `ParseMemoryMap` takes for the firmware region. -/
def IsAtfReg (p : PathProp) : Prop := p.IsReg ∧ InAtf p.path

/-- A property of `/chosen` with the given name and the size of an address. -/
def IsChosen (name : Name) (p : PathProp) : Prop :=
  p.name = name ∧ InNode kChosen p.path ∧ p.path.length = 2 ∧
    (p.value.length = 4 ∨ p.value.length = 8)

instance : DecidablePred IsReg := fun _ => inferInstanceAs (Decidable (_ ∧ _))
instance : DecidablePred IsMemoryReg := fun _ => inferInstanceAs (Decidable (_ ∧ _))
instance : DecidablePred IsAtfReg := fun _ => inferInstanceAs (Decidable (_ ∧ _))
instance (name : Name) : DecidablePred (IsChosen name) :=
  fun _ => inferInstanceAs (Decidable (_ ∧ _))

/-- The first two cells of the data. -/
def base (p : PathProp) : UInt64 := UInt64.ofNat (beNat (p.value.take 8))

/-- The third and fourth cell of the data. -/
def size (p : PathProp) : UInt64 := UInt64.ofNat (beNat ((p.value.drop 8).take 8))

/-- A number read from the eight bytes of a 64-bit number. -/
lemma ofNat_beNat_eq_iff {xs : List UInt8} {v : ℕ} (hlen : xs.length = 8) (hv : v < 2 ^ 64) :
    UInt64.ofNat (beNat xs) = UInt64.ofNat v ↔ xs = beBytes 8 v := by
  have hlt := beNat_lt xs
  have hround := beBytes_beNat xs
  rw [hlen] at hlt hround
  rw [← UInt64.toNat_inj, UInt64.toNat_ofNat_of_lt' (by omega), UInt64.toNat_ofNat_of_lt' hv]
  constructor
  · intro heq
    rw [← heq, hround]
  · intro heq
    rw [heq, beNat_beBytes (by omega)]

/-- The first sixteen bytes of a `reg` are a base and a size. -/
lemma base_size_eq_iff {p : PathProp} {a s : ℕ} (hlen : 16 ≤ p.value.length) (ha : a < 2 ^ 64)
    (hs : s < 2 ^ 64) :
    p.base = UInt64.ofNat a ∧ p.size = UInt64.ofNat s ↔
      p.value.take 16 = beBytes 8 a ++ beBytes 8 s := by
  have htake : (p.value.take 8).length = 8 := List.length_take_of_le (by omega)
  have hdrop : ((p.value.drop 8).take 8).length = 8 :=
    List.length_take_of_le (by rw [List.length_drop]; omega)
  have hsplit : p.value.take 16 = p.value.take 8 ++ (p.value.drop 8).take 8 := by
    rw [← List.take_add]
  rw [PathProp.base, PathProp.size, ofNat_beNat_eq_iff htake ha,
    ofNat_beNat_eq_iff hdrop hs, hsplit]
  constructor
  · rintro ⟨hbase, hsize⟩
    rw [hbase, hsize]
  · exact fun heq => List.append_inj heq (by rw [htake, length_beBytes])

end PathProp

open PathProp

/-- The `reg` that gives the RAM: the first. -/
def memoryReg (ps : List PathProp) : Option PathProp := ps.find? fun p => IsMemoryReg p

/-- The `reg` that gives the firmware region: the last. -/
def atfReg (ps : List PathProp) : Option PathProp := ps.reverse.find? fun p => IsAtfReg p

/-- The property of `/chosen` that counts: the last. -/
def chosenProp (name : Name) (ps : List PathProp) : Option PathProp :=
  ps.reverse.find? fun p => IsChosen name p

/-- The map that has been filled from the properties so far. -/
def mapOf (map : MemoryMap) (ps : List PathProp) : MemoryMap :=
  { map with
    memBase := (memoryReg ps).elim map.memBase base
    memSize := (memoryReg ps).elim map.memSize size
    atfBase := (atfReg ps).elim map.atfBase base
    atfSize := (atfReg ps).elim map.atfSize size }

/-- The state of the loop of `ParseMemoryMap` below the given path, after the given properties. -/
def stateOf (path : List Name) (ps : List PathProp) : MemoryParseState where
  memory := decide (InMemory path)
  reserved := decide (InNode kReservedMemory path)
  atf := decide (InAtf path)
  chosen := decide (InNode kChosen path)
  foundMemory := (memoryReg ps).isSome
  initrdStart := (chosenProp kInitrdStart ps).elim 0 fun p => beNat p.value
  initrdEnd := (chosenProp kInitrdEnd ps).elim 0 fun p => beNat p.value
  hasInitrdStart := (chosenProp kInitrdStart ps).isSome
  hasInitrdEnd := (chosenProp kInitrdEnd ps).isSome
  depth := path.length

/-! ## One more property -/

variable {path : List Name} {ps : List PathProp} {p : PathProp}

/-- The first `reg` of the RAM, one property on. -/
lemma memoryReg_append : memoryReg (ps ++ [p]) =
    (memoryReg ps).or (if IsMemoryReg p then some p else none) := by
  rw [memoryReg, List.find?_append, List.find?_singleton]
  simp only [memoryReg, decide_eq_true_eq]

/-- The last `reg` of the firmware region, one property on. -/
lemma atfReg_append : atfReg (ps ++ [p]) = if IsAtfReg p then some p else atfReg ps := by
  rw [atfReg, List.reverse_append, List.reverse_singleton, List.singleton_append, List.find?_cons]
  by_cases h : IsAtfReg p <;> simp [h, atfReg]

/-- The last property of `/chosen`, one property on. -/
lemma chosenProp_append (name : Name) : chosenProp name (ps ++ [p]) =
    if IsChosen name p then some p else chosenProp name ps := by
  rw [chosenProp, List.reverse_append, List.reverse_singleton, List.singleton_append,
    List.find?_cons]
  by_cases h : IsChosen name p <;> simp [h, chosenProp]

/-! ## Paths that open and close -/

/-- Opening a node below depth 1 keeps the depth-1 node. -/
lemma getElem?_append_singleton {i : ℕ} (name : Name) (h : i < path.length) :
    (path ++ [name])[i]? = path[i]? :=
  List.getElem?_append_left h

/-- A node outside the depth in question. -/
lemma getElem?_eq_none_of_length {i : ℕ} (h : path.length ≤ i) : path[i]? = none :=
  List.getElem?_eq_none h

/-- A path in `/reserved-memory` is not in a memory node. -/
lemma not_inMemory_of_reserved (h : InNode kReservedMemory path) : ¬ InMemory path := by
  rintro ⟨node, hnode, hpre⟩
  rw [InNode] at h
  rw [h, Option.mem_some_iff] at hnode
  subst hnode
  revert hpre
  decide

/-- A path in a memory node is not in `/reserved-memory`. -/
lemma not_inAtf_of_inMemory (h : InMemory path) : ¬ InAtf path :=
  fun hatf => not_inMemory_of_reserved hatf.1 h

/-- The flags at the root and outside of it. -/
lemma stateOf_flags_of_length_le (path : List Name) (h : path.length ≤ 1) :
    ¬ InMemory path ∧ (∀ name, ¬ InNode name path) := by
  have hnone : path[1]? = none := getElem?_eq_none_of_length h
  constructor
  · rintro ⟨node, hnode, -⟩
    rw [hnone] at hnode
    cases hnode
  · intro name hname
    rw [InNode, hnone] at hname
    cases hname

/-- The firmware flag below depth 3. -/
lemma not_inAtf_of_length_le (h : path.length ≤ 2) : ¬ InAtf path := by
  rintro ⟨-, node, hnode, -⟩
  rw [getElem?_eq_none_of_length h] at hnode
  cases hnode

/-! ## The handlers -/

variable {m : Memory} {B : Blob} {a b dtb : ℕ} {f : HeaderField → ℕ}

/-- `ParseMemoryMap` at the start of a node. -/
lemma parseBeginNode_eq (ps : List PathProp) {name : Name} (hend : B.structEnd < 2 ^ 64)
    (hname : B.mem.CString a name) (hlt : a + name.length < B.structEnd)
    (hpath : path.length ≤ maxDepth) :
    parseBeginNode B.mem B.structEnd a (stateOf path ps) = .ok (stateOf (path ++ [name]) ps) := by
  have hsize : sub64 B.structEnd a = B.structEnd - a := sub64_of_le (by omega) hend
  have hdepth : (path.length + 1) % 2 ^ 32 = (path ++ [name]).length := by
    unfold maxDepth at hpath
    rw [List.length_append, List.length_singleton]
    omega
  have hlt' : name.length < B.structEnd - a := by omega
  have ha : a + name.length < 2 ^ 64 := by omega
  rw [parseBeginNode, hsize]
  simp only [stateOf, hdepth]
  -- the depth decides which flags are set
  rcases lt_trichotomy path.length 1 with h0 | h1 | h2
  · rw [if_neg (by omega), if_neg (by omega)]
    obtain ⟨hmem, hnode⟩ := stateOf_flags_of_length_le path (by omega)
    obtain ⟨hmem', hnode'⟩ := stateOf_flags_of_length_le (path ++ [name])
      (by rw [List.length_append, List.length_singleton]; omega)
    have hatf : ¬ InAtf path := fun h => hnode _ h.1
    have hatf' : ¬ InAtf (path ++ [name]) := fun h => hnode' _ h.1
    simp only [hmem, hnode, hmem', hnode', hatf, hatf', decide_false]
    rfl
  · rw [if_pos h1, stringStartsWith_eq hname ha hlt' (by decide), ok_bind,
      stringEquals_eq hname ha hlt' (by decide), ok_bind, stringEquals_eq hname ha hlt' (by decide),
      ok_bind]
    have hnew : (path ++ [name])[1]? = some name := by
      rw [List.getElem?_append_right h1.le, h1]
      rfl
    have hmem : InMemory (path ++ [name]) ↔ kMemory <+: name := by
      rw [InMemory, hnew]
      simp
    have hnode (node : Name) : InNode node (path ++ [name]) ↔ name = node := by
      rw [InNode, hnew, Option.some.injEq]
    have hatf : ¬ InAtf path := not_inAtf_of_length_le (by omega)
    have hatf' : ¬ InAtf (path ++ [name]) :=
      not_inAtf_of_length_le (by rw [List.length_append, List.length_singleton]; omega)
    simp only [hmem, hnode, hatf, hatf', decide_false]
    rfl
  · have hkeep : (path ++ [name])[1]? = path[1]? := getElem?_append_singleton name h2
    have hmem : InMemory (path ++ [name]) ↔ InMemory path := by rw [InMemory, InMemory, hkeep]
    have hnode (node : Name) : InNode node (path ++ [name]) ↔ InNode node path := by
      rw [InNode, InNode, hkeep]
    rw [if_neg (by omega)]
    by_cases hsub : path.length = 2 ∧ InNode kReservedMemory path
    · have hnew : (path ++ [name])[2]? = some name := by
        rw [List.getElem?_append_right hsub.1.le, hsub.1]
        rfl
      have hatf : InAtf (path ++ [name]) ↔ name ∈ kAtfNames := by
        rw [InAtf, hnode, hnew]
        simp [hsub.2]
      rw [if_pos (by simpa using hsub),
        stringEqualsAny_eq hname ha hlt' (by decide), ok_bind]
      simp only [hmem, hnode, hatf]
      rfl
    · rw [if_neg (by simpa using hsub)]
      have hatf : InAtf (path ++ [name]) ↔ InAtf path := by
        rw [InAtf, InAtf, hnode]
        refine and_congr_right fun hres => ?_
        rw [getElem?_append_singleton name]
        exact lt_of_le_of_ne h2 fun h => hsub ⟨h.symm, hres⟩
      simp only [hmem, hnode, hatf]
      rfl

/-- `ParseMemoryMap` at the end of a node. -/
lemma parseEndNode_eq (hne : path ≠ []) (hpath : path.length ≤ maxDepth) :
    parseEndNode (stateOf path ps) = stateOf path.dropLast ps := by
  obtain ⟨init, name, rfl⟩ : ∃ init name, path = init ++ [name] :=
    ⟨_, _, (List.dropLast_append_getLast hne).symm⟩
  rw [List.dropLast_concat]
  rw [List.length_append, List.length_singleton] at hpath
  have hdepth : sub32 (init ++ [name]).length 1 = init.length := by
    unfold maxDepth at hpath
    rw [List.length_append, List.length_singleton, sub32]
    omega
  rw [parseEndNode]
  simp only [stateOf, hdepth]
  rcases lt_trichotomy init.length 1 with h0 | h1 | h2
  · rw [if_neg (by omega), if_neg (by omega)]
    obtain ⟨hmem, hnode⟩ := stateOf_flags_of_length_le init (by omega)
    obtain ⟨hmem', hnode'⟩ := stateOf_flags_of_length_le (init ++ [name])
      (by rw [List.length_append, List.length_singleton]; omega)
    have hatf : ¬ InAtf init := fun h => hnode _ h.1
    have hatf' : ¬ InAtf (init ++ [name]) := fun h => hnode' _ h.1
    simp only [hmem, hnode, hmem', hnode', hatf, hatf', decide_false]
  · rw [if_pos h1]
    obtain ⟨hmem, hnode⟩ := stateOf_flags_of_length_le init h1.le
    have hatf : ¬ InAtf init := not_inAtf_of_length_le (by omega)
    have hatf' : ¬ InAtf (init ++ [name]) :=
      not_inAtf_of_length_le (by rw [List.length_append, List.length_singleton]; omega)
    simp only [hmem, hnode, hatf, hatf', decide_false]
  · have hkeep : (init ++ [name])[1]? = init[1]? := getElem?_append_singleton name h2
    have hmem : InMemory (init ++ [name]) ↔ InMemory init := by rw [InMemory, InMemory, hkeep]
    have hnode (node : Name) : InNode node (init ++ [name]) ↔ InNode node init := by
      rw [InNode, InNode, hkeep]
    rw [if_neg (by omega)]
    by_cases htwo : init.length = 2
    · have hatf : ¬ InAtf init := not_inAtf_of_length_le (by omega)
      rw [if_pos htwo]
      simp only [hmem, hnode, hatf, decide_false]
    · have hatf : InAtf (init ++ [name]) ↔ InAtf init := by
        rw [InAtf, InAtf, hnode, getElem?_append_singleton name (by omega)]
      rw [if_neg htwo]
      simp only [hmem, hnode, hatf]

/-- A property of `/chosen` is not a `reg`. -/
lemma not_isReg_of_isChosen {name : Name} (hname : name ≠ kReg) (h : IsChosen name p) : ¬ IsReg p :=
  fun hreg => hname (h.1.symm.trans hreg.1)

/-- A `reg` says nothing about the archive. -/
lemma not_isChosen_of_isReg (name : Name) (hname : name ≠ kReg) (h : IsReg p) :
    ¬ IsChosen name p :=
  fun hchosen => not_isReg_of_isChosen hname hchosen h

/-- A property that is none of those looked for changes nothing. -/
lemma stateOf_append_of_not (path : List Name) (hmem : ¬ IsMemoryReg p ∨ (memoryReg ps).isSome)
    (hatf : ¬ IsAtfReg p) (hstart : ¬ IsChosen kInitrdStart p) (hfin : ¬ IsChosen kInitrdEnd p)
    (map : MemoryMap) :
    stateOf path (ps ++ [p]) = stateOf path ps ∧ mapOf map (ps ++ [p]) = mapOf map ps := by
  have hreg : memoryReg (ps ++ [p]) = memoryReg ps := by
    rw [memoryReg_append]
    rcases hmem with hno | hsome
    · rw [if_neg hno, Option.or_none]
    · obtain ⟨q, hq⟩ := Option.isSome_iff_exists.mp hsome
      rw [hq, Option.some_or]
  simp only [stateOf, mapOf, hreg, atfReg_append, chosenProp_append, if_neg hatf, if_neg hstart,
    if_neg hfin, and_self]

/-- `ParseMemoryMap` at a property. -/
lemma parseProp_eq {nameOff : ℕ} {name : Name} {value : List UInt8} (map : MemoryMap)
    (hv : ValidHeader m dtb f) (hname : (blobOf m dtb f).PropName nameOff name)
    (hvalue : m.HasBytes a value) (ha : a + value.length ≤ 2 ^ 64) :
    parseProp m dtb (blobOf m dtb f).strings a value.length nameOff (stateOf path ps)
        (mapOf map ps) =
      .ok (stateOf path (ps ++ [⟨path, name, value⟩]),
        mapOf map (ps ++ [⟨path, name, value⟩])) := by
  obtain ⟨span, hspan, hequals⟩ := stringEquals_propName hv hname
  rw [parseProp, hspan, ok_bind, hequals kReg (by decide), ok_bind]
  by_cases hreg : IsReg ⟨path, name, value⟩
  · have hcond : decide (name = kReg) = true ∧ value.length ≥ 16 := ⟨decide_eq_true hreg.1, hreg.2⟩
    have hstart := not_isChosen_of_isReg kInitrdStart (by decide) hreg
    have hfin := not_isChosen_of_isReg kInitrdEnd (by decide) hreg
    rw [if_pos hcond]
    obtain ⟨hfirst, hrest⟩ := hvalue.take_drop 8 (by have := hreg.2; simp only at this; omega)
    have hlen : 16 ≤ value.length := hreg.2
    have hbase : getCombinedCell m ⟨a, 2⟩ = .ok (beNat (value.take 8)) :=
      getCombinedCell_two hfirst (by rw [List.length_take]; omega) (by omega)
    have hsize : getCombinedCell m ⟨add64 a 8, 2⟩ = .ok (beNat ((value.drop 8).take 8)) := by
      rw [add64_of_lt (by omega)]
      have hdrop : 8 ≤ (value.drop 8).length := by
        rw [List.length_drop]
        omega
      refine getCombinedCell_two (hrest.take_drop 8 hdrop).1 ?_ (by omega)
      rw [List.length_take]
      omega
    by_cases hmem : InMemory path
    · have hatf : ¬ IsAtfReg ⟨path, name, value⟩ := fun h => not_inAtf_of_inMemory hmem h.2
      cases hfound : memoryReg ps with
      | none =>
        rw [if_pos (by simp [stateOf, hmem, hfound]), hbase, ok_bind, hsize, ok_bind]
        have hmemReg : IsMemoryReg ⟨path, name, value⟩ := ⟨hreg, hmem⟩
        simp only [stateOf, mapOf, memoryReg_append, hfound, if_pos hmemReg, atfReg_append,
          chosenProp_append, if_neg hatf, if_neg hstart, if_neg hfin, Option.none_or,
          Option.isSome_some, Option.elim_some, base, size]
        rfl
      | some q =>
        have hno : ¬ InAtf path := not_inAtf_of_inMemory hmem
        rw [if_neg (by simp [stateOf, hfound]), if_neg (by simp [stateOf, hno])]
        obtain ⟨hs, hm⟩ := stateOf_append_of_not path (.inr (by rw [hfound]; rfl)) hatf
          hstart hfin map
        rw [hs, hm]
        rfl
    · have hnoMem : ¬ IsMemoryReg ⟨path, name, value⟩ := fun h => hmem h.2
      rw [if_neg (by simp [stateOf, hmem])]
      by_cases hatf : InAtf path
      · have hatfReg : IsAtfReg ⟨path, name, value⟩ := ⟨hreg, hatf⟩
        rw [if_pos (by simp [stateOf, hatf]), hbase, ok_bind, hsize, ok_bind]
        simp only [stateOf, mapOf, memoryReg_append, if_neg hnoMem, atfReg_append, if_pos hatfReg,
          chosenProp_append, if_neg hstart, if_neg hfin, Option.or_none,
            Option.elim_some, base, size]
        rfl
      · rw [if_neg (by simp [stateOf, hatf])]
        obtain ⟨hs, hm⟩ := stateOf_append_of_not path (.inl hnoMem)
          (fun h => hatf h.2) hstart hfin map
        rw [hs, hm]
        rfl
  · have hcond : ¬ (decide (name = kReg) = true ∧ value.length ≥ 16) :=
      fun h => hreg ⟨of_decide_eq_true h.1, h.2⟩
    have hnoMem : ¬ IsMemoryReg ⟨path, name, value⟩ := fun h => hreg h.1
    have hnoAtf : ¬ IsAtfReg ⟨path, name, value⟩ := fun h => hreg h.1
    rw [if_neg hcond]
    by_cases hchosen : InNode kChosen path ∧ path.length = 2 ∧ (value.length = 4 ∨ value.length = 8)
    · rw [if_pos (by simpa [stateOf] using hchosen), hequals kInitrdStart (by decide), ok_bind]
      by_cases hstart : name = kInitrdStart
      · have hyes : IsChosen kInitrdStart ⟨path, name, value⟩ := ⟨hstart, hchosen⟩
        have hfin : ¬ IsChosen kInitrdEnd ⟨path, name, value⟩ :=
          fun h => absurd (hstart.symm.trans h.1) (by decide)
        rw [if_pos (decide_eq_true hstart), getInitrdAddress_eq hvalue hchosen.2.2 ha, ok_bind]
        simp only [stateOf, mapOf, memoryReg_append, if_neg hnoMem, atfReg_append, if_neg hnoAtf,
          chosenProp_append, if_pos hyes, if_neg hfin, Option.or_none, Option.elim_some,
          Option.isSome_some]
        rfl
      · have hno : ¬ IsChosen kInitrdStart ⟨path, name, value⟩ := fun h => hstart h.1
        rw [if_neg (by simpa using hstart), hequals kInitrdEnd (by decide), ok_bind]
        by_cases hfin : name = kInitrdEnd
        · have hyes : IsChosen kInitrdEnd ⟨path, name, value⟩ := ⟨hfin, hchosen⟩
          rw [if_pos (decide_eq_true hfin), getInitrdAddress_eq hvalue hchosen.2.2 ha, ok_bind]
          simp only [stateOf, mapOf, memoryReg_append, if_neg hnoMem, atfReg_append, if_neg hnoAtf,
            chosenProp_append, if_pos hyes, if_neg hno, Option.or_none, Option.elim_some,
            Option.isSome_some]
          rfl
        · rw [if_neg (by simpa using hfin)]
          obtain ⟨hs, hm⟩ := stateOf_append_of_not path (.inl hnoMem) hnoAtf hno
            (fun h => hfin h.1) map
          rw [hs, hm]
          rfl
    · rw [if_neg (by simpa [stateOf] using hchosen)]
      obtain ⟨hs, hm⟩ := stateOf_append_of_not path (.inl hnoMem) hnoAtf
        (fun h => hchosen h.2) (fun h => hchosen h.2) map
      rw [hs, hm]
      rfl

/-! ## The walk -/

variable {c : ℕ} {t : Token} {l : List (ℕ × Token)}

/-- The loop body of `ParseMemoryMap` at a token other than the end token. -/
lemma parseItem_of_tokenAt {blocks : BlockPointers} (map : MemoryMap) (hv : ValidHeader m dtb f)
    (hstrings : blocks.strings = (blobOf m dtb f).strings)
    (hend : blocks.structEnd = (blobOf m dtb f).structEnd) (h : TokenAt (blobOf m dtb f) a t b)
    (hpath : path.length ≤ maxDepth) (hallowed : t = .endNode → path ≠ []) (hfin : t ≠ .finish) :
    parseItem m dtb blocks (t.item a) (stateOf path ps, mapOf map ps) =
      .ok (.inl (stateOf (pathAfter path t) (ps ++ propOf path t),
        mapOf map (ps ++ propOf path t))) := by
  have hle := hv.structEnd_le
  have hfits := hv.fits
  cases h with
  | @beginNode name hword hname hlt =>
    simp only [parseItem, Token.item, hend]
    have heq := parseBeginNode_eq ps (B := blobOf m dtb f) (by omega) hname hlt hpath
    have hmem : (blobOf m dtb f).mem = m := rfl
    rw [hmem] at heq
    rw [heq]
    simp only [propOf, List.append_nil]
    rfl
  | endNode =>
    simp only [parseItem, Token.item, parseEndNode_eq (hallowed rfl) hpath, propOf,
      List.append_nil]
    rfl
  | @prop nameOff name value hword hlen hoff hname hvalue hdata =>
    simp only [parseItem, Token.item, hstrings]
    rw [parseProp_eq map hv hname hvalue (by omega)]
    rfl
  | nop =>
    simp only [parseItem, Token.item, propOf, List.append_nil]
    rfl
  | finish => exact absurd rfl hfin

/-- The loop of `ParseMemoryMap` over a balanced sequence of tokens. -/
lemma consume_parseItem {blocks : BlockPointers} (map : MemoryMap) (hv : ValidHeader m dtb f)
    (hstrings : blocks.strings = (blobOf m dtb f).strings)
    (hend : blocks.structEnd = (blobOf m dtb f).structEnd) (h : Tokens (blobOf m dtb f) a l c)
    (hbal : Balanced path l) (hnest : nesting path l ≤ maxDepth)
    (k : MemoryParseState × MemoryMap → TokenRun MemoryMap) :
    consume (fun a t => parseItem m dtb blocks (t.item a)) (fun a s t => ⟨a, s.1.depth, t.item a⟩) l
        (stateOf path ps, mapOf map ps) k =
      ⟨visitsOf path l, parseEnd (stateOf [] (ps ++ propsOf path l))
        (mapOf map (ps ++ propsOf path l))⟩ := by
  induction h generalizing path ps with
  | nil => exact absurd hbal id
  | @cons a b c t l ht hrest ih =>
    rw [consume]
    rcases hbal.cons_cases with ⟨rfl, rfl, rfl⟩ | ⟨hfin, hallowed, hbal'⟩
    · simp only [parseItem, Token.item, propsOf, propOf, List.append_nil]
      cases hresult : parseEnd (stateOf [] ps) (mapOf map ps) <;> rfl
    · have hpath : path.length ≤ maxDepth := (le_max_left _ _).trans hnest
      rw [parseItem_of_tokenAt map hv hstrings hend ht hpath hallowed hfin]
      simp only
      rw [ih hbal' ((le_max_right _ _).trans hnest), List.append_assoc]
      rfl

/-- What `ParseMemoryMap` returns for the properties of a blob. -/
def memoryMapOf (dtb total : ℕ) (ps : List PathProp) : Except Halt MemoryMap :=
  parseEnd (stateOf [] ps)
    (mapOf { dtbBase := UInt64.ofNat dtb, dtbSize := UInt64.ofNat total } ps)

/-- A walk of the parsers over a blob that validation accepts has enough fuel. -/
lemma exists_loopFuel_eq (hv : ValidHeader m dtb f)
    (h : Tokens (blobOf m dtb f) (dtb + f .structOff) l (blobOf m dtb f).structEnd) :
    ∃ n, loopFuel = n + l.length := by
  have hlen := length_le_of_tokens h
  have hend := hv.structEnd_le
  have hfits := hv.fits
  refine ⟨loopFuel - l.length, ?_⟩
  rw [loopFuel]
  omega

/-- The state and the map at the start of the walk. -/
lemma stateOf_nil (map : MemoryMap) : (stateOf [] [], mapOf map []) = ({}, map) := rfl

/-- The token walk of `ParseMemoryMap`. -/
lemma walk_parseItem {n fuel : ℕ} {blocks : BlockPointers} (map : MemoryMap)
    (hv : ValidHeader m dtb f) (hstrings : blocks.strings = (blobOf m dtb f).strings)
    (hend : blocks.structEnd = (blobOf m dtb f).structEnd)
    (h : Tokens (blobOf m dtb f) a l (blobOf m dtb f).structEnd) (hfuel : fuel = n + l.length)
    (hbal : Balanced [] l) (hnest : nesting [] l ≤ maxDepth) :
    walk (nextItem m blocks.structEnd) (parseItem m dtb blocks)
        (fun a s x => (⟨a, s.1.depth, x⟩ : Visit)) .hang fuel a ({}, map) =
      ⟨visitsOf [] l, parseEnd (stateOf [] (propsOf [] l)) (mapOf map (propsOf [] l))⟩ := by
  have hle := hv.structEnd_le
  have hfits := hv.fits
  have hnext : ∀ a t b, TokenAt (blobOf m dtb f) a t b ∧ b ≤ (blobOf m dtb f).structEnd →
      nextItem m blocks.structEnd a = .ok (t.item a, b) := by
    intro a t b ht
    rw [hend]
    exact nextItem_of_tokenAt (B := blobOf m dtb f) (by omega) ht.1 ht.2
  rw [hfuel, walk_eq_consume (fun a t => t.item a) hnext (tokens_bounded h), ← stateOf_nil map,
    consume_parseItem map hv hstrings hend h hbal hnest, List.nil_append]

/-- `ParseMemoryMap` on a blob whose structure block is a balanced sequence of tokens: it visits the
tokens, and its result is a function of their properties. -/
theorem parseMemoryMap_eq (hv : ValidHeader m dtb f)
    (h : Tokens (blobOf m dtb f) (dtb + f .structOff) l (blobOf m dtb f).structEnd)
    (hbal : Balanced [] l) (hnest : nesting [] l ≤ maxDepth)
    (hal : 4 ∣ dtb + f .structOff ∨ PropsAfterNode (visitsOf [] l)) :
    parseMemoryMap m dtb = ⟨visitsOf [] l, memoryMapOf dtb (f .totalSize) (propsOf [] l)⟩ := by
  obtain ⟨n, hn⟩ := exists_loopFuel_eq hv h
  rw [parseMemoryMap, validateHeader_of_tokens hv h hbal hnest hal, Run.after_ok, hv.header_eq,
    Run.after_ok, hv.blockPointers_eq, Run.after_ok]
  exact walk_parseItem _ hv rfl rfl h hn hbal hnest

end DeviceTree

end HyperBerry
