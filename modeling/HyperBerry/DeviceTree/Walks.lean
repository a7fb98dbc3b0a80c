import HyperBerry.DeviceTree.Levels

/-!
# The walks of the parsers follow the validation

`ParseMemoryMap` and `FindDevice` trust that validation has gone through the structure block before
them.  On a blob that validation accepts they visit the tokens that validation visited, with the
same depth counters, and read nothing outside the header and the two blocks; `FindDevice` stops
earlier when it meets the device it looks for.
-/

namespace HyperBerry

namespace DeviceTree

open Memory Walk

variable {m : Memory} {B : Blob} {a b c dtb : ℕ} {t : Token} {l : List (ℕ × Token)}
variable {path : List Name} {xs ys : List UInt8} {f : HeaderField → ℕ}

/-- Bytes that are there can be searched for a NUL. -/
lemma nulIndex_ok (h : m.HasBytes a xs) (ha : a + xs.length < 2 ^ 64) :
    ∃ i ≤ xs.length, nulIndex m a xs.length = .ok i :=
  ⟨_, (List.takeWhile_prefix _).length_le, nulIndex_bytes h ha⟩

/-! ## The loop of `FindDevice` -/

/-- A walk of `FindDevice` goes through all the given visits and finds nothing, or it goes through
them up to the end of a node and finds a device there. -/
def FollowsUpToDevice (visits : List Visit) (run : TokenRun (Option FindState)) : Prop :=
  (run.visits = visits ∧ run.result = .ok none) ∨
    ∃ s v, run.result = .ok (some s) ∧ run.visits <+: visits ∧ run.visits.getLast? = some v ∧
      v.item = .endNode

/-- One more visit in front. -/
lemma FollowsUpToDevice.log {visits : List Visit} {run : TokenRun (Option FindState)}
    (h : FollowsUpToDevice visits run) (v : Visit) :
    FollowsUpToDevice (v :: visits) (run.log v) := by
  rcases h with ⟨hvisits, hresult⟩ | ⟨s, w, hresult, hpre, hlast, hitem⟩
  · refine .inl ⟨?_, hresult⟩
    rw [Run.visits_log, hvisits]
  · refine .inr ⟨s, w, hresult, ?_, ?_, hitem⟩
    · exact List.cons_prefix_cons.mpr ⟨rfl, hpre⟩
    · rw [Run.visits_log, List.getLast?_cons, hlast]
      rfl

/-- The loop of `FindDevice` over a balanced sequence of tokens. -/
lemma consume_findItem {blocks : BlockPointers} (devices : List (List UInt8)) {s : FindState}
    {levels : List Level} (hv : ValidHeader m dtb f)
    (hstrings : blocks.strings = (blobOf m dtb f).strings)
    (h : Tokens (blobOf m dtb f) a l c) (hbal : Balanced path l) (hnest : nesting path l ≤ maxDepth)
    (hdepth : s.depth = levels.length) (hpath : levels.length = path.length)
    (hs : StackHolds m s.stack levels) (k : FindState → TokenRun (Option FindState)) :
    let run := consume (fun a t => findItem m dtb blocks devices (t.item a))
      (fun a s t => (⟨a, s.depth, t.item a⟩ : Visit)) l s k
    FollowsUpToDevice (visitsOf path l) run ∧
      ∃ r, run.result = .ok r ∧ Found m (deviceLevels devices levels l) r := by
  induction h generalizing path s levels with
  | nil => exact absurd hbal id
  | @cons a b c t l ht hrest ih =>
    have hafter := length_levelsAfter devices hpath t
    have hle : levels.length ≤ maxDepth := hpath ▸ (le_max_left _ _).trans hnest
    have hnest' : nesting (pathAfter path t) l ≤ maxDepth := (le_max_right _ _).trans hnest
    have hallowed : t = .endNode → levels ≠ [] := by
      rintro rfl rfl
      exact hbal.1 (List.length_eq_zero_iff.mp hpath.symm)
    rw [consume, visitsOf, deviceLevels, hdepth, hpath]
    rcases findItem_levels devices hv hstrings ht hdepth hle
        (hafter ▸ (length_le_nesting _ _).trans hnest') hallowed hs with
      ⟨rfl, hitem⟩ | ⟨rfl, hdevice, s', hitem, hdepth', hs'⟩ | ⟨hfin, hno, s', hitem, hdepth', hs'⟩
    · obtain ⟨-, rfl⟩ := hbal
      rw [if_neg (by simp)]
      simp only [hitem]
      exact ⟨.inl ⟨rfl, rfl⟩, none, rfl, trivial⟩
    · rw [if_pos ⟨rfl, hdevice⟩]
      simp only [hitem]
      refine ⟨.inr ⟨s', _, rfl, List.cons_prefix_cons.mpr ⟨rfl, List.nil_prefix⟩, rfl, rfl⟩, ?_⟩
      exact ⟨some s', rfl, hdepth', hs'⟩
    · rw [if_neg hno]
      simp only [hitem]
      rcases hbal.cons_cases with ⟨hfin', -⟩ | ⟨-, -, hbal'⟩
      · exact absurd hfin' hfin
      · obtain ⟨hfollows, r, hr, hfound⟩ := ih hbal' hnest' hdepth' hafter hs'
        exact ⟨hfollows.log _, r, hr, hfound⟩

/-- The token walk of `FindDevice`. -/
lemma walk_findItem {n fuel : ℕ} {blocks : BlockPointers} (devices : List (List UInt8))
    (hv : ValidHeader m dtb f) (hstrings : blocks.strings = (blobOf m dtb f).strings)
    (hend : blocks.structEnd = (blobOf m dtb f).structEnd)
    (h : Tokens (blobOf m dtb f) a l (blobOf m dtb f).structEnd) (hfuel : fuel = n + l.length)
    (hbal : Balanced [] l) (hnest : nesting [] l ≤ maxDepth) :
    let run := walk (nextItem m blocks.structEnd) (findItem m dtb blocks devices)
      (fun a s x => (⟨a, s.depth, x⟩ : Visit)) .hang fuel a {}
    FollowsUpToDevice (visitsOf [] l) run ∧
      ∃ r, run.result = .ok r ∧ Found m (deviceLevels devices [] l) r := by
  have hle := hv.structEnd_le
  have hfits := hv.fits
  have hnext : ∀ a t b, TokenAt (blobOf m dtb f) a t b ∧ b ≤ (blobOf m dtb f).structEnd →
      nextItem m blocks.structEnd a = .ok (t.item a, b) := by
    intro a t b ht
    rw [hend]
    exact nextItem_of_tokenAt (B := blobOf m dtb f) (by omega) ht.1 ht.2
  rw [hfuel, walk_eq_consume (fun a t => t.item a) hnext (tokens_bounded h)]
  have hstack : StackHolds m ({} : FindState).stack [] := trivial
  exact consume_findItem devices hv hstrings h hbal hnest rfl rfl hstack _

/-- The walk of `FindDevice` on a blob whose structure block is a balanced sequence of tokens. -/
lemma findWalk_follows {devices : List (List UInt8)} (hdevices : devices ≠ [])
    (hv : ValidHeader m dtb f)
    (h : Tokens (blobOf m dtb f) (dtb + f .structOff) l (blobOf m dtb f).structEnd)
    (hbal : Balanced [] l) (hnest : nesting [] l ≤ maxDepth)
    (hal : 4 ∣ dtb + f .structOff ∨ PropsAfterNode (visitsOf [] l)) :
    FollowsUpToDevice (visitsOf [] l) (findWalk m dtb devices) := by
  obtain ⟨n, hn⟩ := exists_loopFuel_eq hv h
  rw [findWalk, validateHeader_of_tokens hv h hbal hnest hal, Run.after_ok, if_neg hdevices,
    hv.blockPointers_eq, Run.after_ok]
  exact (walk_findItem devices hv rfl rfl h hn hbal hnest).1

/-- The walk of `FindDevice` stops at the first node that closes as a device. -/
lemma findWalk_found (devices : List (List UInt8)) (hv : ValidHeader m dtb f)
    (h : Tokens (blobOf m dtb f) (dtb + f .structOff) l (blobOf m dtb f).structEnd)
    (hbal : Balanced [] l) (hnest : nesting [] l ≤ maxDepth)
    (hal : 4 ∣ dtb + f .structOff ∨ PropsAfterNode (visitsOf [] l)) :
    ∃ r, (findWalk m dtb devices).result = .ok r ∧ Found m (deviceLevels devices [] l) r := by
  obtain ⟨n, hn⟩ := exists_loopFuel_eq hv h
  rw [findWalk, validateHeader_of_tokens hv h hbal hnest hal, Run.after_ok]
  by_cases hdevices : devices = []
  · subst hdevices
    rw [if_pos rfl, deviceLevels_nil (by simp)]
    exact ⟨none, rfl, trivial⟩
  · rw [if_neg hdevices, hv.blockPointers_eq, Run.after_ok]
    exact (walk_findItem devices hv rfl rfl h hn hbal hnest).2

/-! ## Agreement of the walks -/

/-- The visits to a balanced sequence of tokens end at the end token, outside of all nodes. -/
lemma getLast?_visitsOf (h : Tokens B a l c) (hbal : Balanced path l) :
    (visitsOf path l).getLast? = some ⟨c - 4, 0, .finish⟩ := by
  induction h generalizing path with
  | nil => exact absurd hbal id
  | @cons a b c t l ht hrest ih =>
    rw [visitsOf, List.getLast?_cons]
    rcases hbal.cons_cases with ⟨rfl, rfl, rfl⟩ | ⟨-, -, hbal'⟩
    · cases ht
      cases hrest
      rfl
    · rw [ih hbal']
      rfl

/-- A balanced sequence of tokens closes nodes only inside of nodes. -/
lemma depth_pos_of_mem_visitsOf (hbal : Balanced path l) {v : Visit} (hv : v ∈ visitsOf path l)
    (hitem : v.item = .endNode) : 0 < v.depth := by
  induction l generalizing path with
  | nil => exact absurd hbal id
  | cons p l ih =>
    obtain ⟨a, t⟩ := p
    rw [visitsOf, List.mem_cons] at hv
    rcases hbal.cons_cases with ⟨rfl, -, rfl⟩ | ⟨-, hne, hbal'⟩
    · rcases hv with rfl | hv
      · cases hitem
      · cases hv
    · rcases hv with rfl | hv
      · cases t with
        | endNode => exact List.length_pos_of_ne_nil (hne rfl)
        | beginNode name => cases hitem
        | prop nameOff name value => cases hitem
        | nop => cases hitem
        | finish => cases hitem
      · exact ih hbal' hv

/-- A header field of a blob, from the content of memory. -/
def fieldAt (content : ℕ → UInt8) (dtb : ℕ) (field : HeaderField) : ℕ :=
  beNat ((List.range 4).map fun i => content (dtb + field.offset + i))

/-- A memory that has the content of the header and of the two blocks of a blob; the rest of it may
be anything, and need not be there. -/
structure HasBlocks (content : ℕ → UInt8) (dtb : ℕ) (m : Memory) : Prop where
  /-- The header. -/
  header : ∀ a, dtb ≤ a → a < dtb + fdtHeaderSize → m a = some (content a)
  /-- The structure block. -/
  structs : ∀ a, dtb + fieldAt content dtb .structOff ≤ a →
    a < dtb + fieldAt content dtb .structOff + fieldAt content dtb .sizeStructs →
    m a = some (content a)
  /-- The strings block. -/
  strings : ∀ a, dtb + fieldAt content dtb .stringsOff ≤ a →
    a < dtb + fieldAt content dtb .stringsOff + fieldAt content dtb .sizeStrings →
    m a = some (content a)

/-- The fields of a valid header are those of the content. -/
lemma ValidHeader.eq_fieldAt {content : ℕ → UInt8}
    (hv : ValidHeader (fun a => some (content a)) dtb f) : f = fieldAt content dtb := by
  funext field
  have hbytes : HasBytes (fun a => some (content a)) (dtb + field.offset)
      ((List.range 4).map fun i => content (dtb + field.offset + i)) := by
    intro i hi
    rw [List.length_map, List.length_range] at hi
    rw [List.getElem?_map, List.getElem?_range hi]
    rfl
  have heq := (hv.words field).unique hbytes (by rw [length_beBytes]; rfl)
  have hlt := hv.lt field
  rw [fieldAt, ← heq, beNat_beBytes (by omega)]

/-- On a blob that validation accepts, whose structure block is aligned or has no property before
its first node, the walk of validation ends at the end token and closes nodes only inside of nodes.
In every memory that has the header and the two blocks, `ParseMemoryMap` visits the same tokens at
the same addresses and depths, and panics at most because there is no memory node; `FindDevice`
visits them up to the end of the node of the device it returns, and all of them if it returns none.
-/
theorem parsers_follow_validation (content : ℕ → UInt8) (dtb : UInt64) (visits : List Visit)
    (h : validateHeader (fun a => some (content a)) dtb.toNat = ⟨visits, .ok ()⟩)
    (hal : 4 ∣ dtb.toNat + fieldAt content dtb.toNat .structOff ∨ PropsAfterNode visits) :
    visits.getLast? = some ⟨dtb.toNat + fieldAt content dtb.toNat .structOff +
        fieldAt content dtb.toNat .sizeStructs - 4, 0, .finish⟩ ∧
      (∀ v ∈ visits, v.item = .endNode → 0 < v.depth) ∧
      ∀ m, HasBlocks content dtb.toNat m →
        (parseMemoryMap m dtb.toNat).visits = visits ∧
        (∀ e, (parseMemoryMap m dtb.toNat).result = .error e →
          e = .panic "[ERROR][DTB] memory is missing") ∧
        (findWalk m dtb.toNat []).visits = [] ∧ (findWalk m dtb.toNat []).result = .ok none ∧
        ∀ devices, (findDevice m dtb.toNat devices).visits = (findWalk m dtb.toNat devices).visits ∧
          (devices ≠ [] → FollowsUpToDevice visits (findWalk m dtb.toNat devices)) := by
  obtain ⟨f, hv, htokens⟩ := tokens_of_validateHeader dtb.toNat_lt h
  obtain rfl := hv.eq_fieldAt
  obtain ⟨l, hl, hbal, hnest, rfl⟩ := htokens (fun _ _ _ => rfl) hal
  refine ⟨getLast?_visitsOf hl hbal, fun v => depth_pos_of_mem_visitsOf hbal, fun m hm => ?_⟩
  -- the blob is the same in the other memory
  have hv' : ValidHeader m dtb.toNat (fieldAt content dtb.toNat) := hv.congr hm.header
  have hl' : Tokens (blobOf m dtb.toNat (fieldAt content dtb.toNat)) _ l _ :=
    tokens_congr hl ⟨rfl, rfl, rfl, hm.strings⟩ hm.structs
  have hparse := parseMemoryMap_eq hv' hl' hbal hnest hal
  have hvalid := validateHeader_of_tokens hv' hl' hbal hnest hal
  refine ⟨by rw [hparse], ?_, ?_, ?_, fun devices => ⟨rfl, fun hdevices => ?_⟩⟩
  · intro e he
    rw [hparse] at he
    simp only [memoryMapOf, parseEnd] at he
    split_ifs at he
    exact (Except.error.inj he).symm
  · rw [findWalk, hvalid]
    rfl
  · rw [findWalk, hvalid]
    rfl
  · exact findWalk_follows hdevices hv' hl' hbal hnest hal

/-! ## Blobs in memory -/

/-- The bytes of a node start. -/
def beginNodeBytes (name : Name) : List UInt8 :=
  beBytes 4 1 ++ name ++ List.replicate (roundUp4 (name.length + 1) - name.length) 0

/-- The bytes of a property. -/
def propBytes (nameOff : ℕ) (value : List UInt8) : List UInt8 :=
  beBytes 4 3 ++ beBytes 4 value.length ++ beBytes 4 nameOff ++ value ++
    List.replicate (roundUp4 value.length - value.length) 0

/-- The bytes of a node end. -/
def endNodeBytes : List UInt8 := beBytes 4 2

/-- The bytes of the end token. -/
def finishBytes : List UInt8 := beBytes 4 9

/-- A blob with an empty reservation map behind the header, then `gap` bytes, the structure block
and the strings block. -/
def blobBytes (gap : ℕ) (structs strings : List UInt8) : List UInt8 :=
  let structOff := 56 + gap
  let stringsOff := structOff + structs.length
  [fdtMagic, stringsOff + strings.length, structOff, stringsOff, 40, 17, 16, 0, strings.length,
      structs.length].flatMap (beBytes 4) ++
    List.replicate (16 + gap) 0 ++ structs ++ strings

/-- The content of a memory in which the bytes lie at an address, with zeros around them. -/
def contentAt (base : ℕ) (bytes : List UInt8) (a : ℕ) : UInt8 :=
  if base ≤ a then bytes.getD (a - base) 0 else 0

/-- A tree whose root is a device `a` with one region. -/
def rootDevice : List UInt8 :=
  blobBytes 0
    (beginNodeBytes [] ++ propBytes 0 (ascii "a" ++ [0]) ++
      propBytes 11 (beBytes 4 0 ++ beBytes 4 0x9000000 ++ beBytes 4 0x1000) ++ endNodeBytes ++
      finishBytes)
    (ascii "compatible" ++ [0] ++ ascii "reg" ++ [0])

/-- The walks over the tree of one device. -/
theorem parsers_follow_validation_rootDevice :
    ∃ visits, validateHeader (fun a => some (contentAt 0x1000 rootDevice a)) 0x1000 =
        ⟨visits, .ok ()⟩ ∧ visits.length = 5 ∧
      ∀ m, HasBlocks (contentAt 0x1000 rootDevice) 0x1000 m →
        (parseMemoryMap m 0x1000).visits = visits := by
  have hresult : (validateHeader (fun a => some (contentAt 0x1000 rootDevice a)) 0x1000).result =
      .ok () := by decide +kernel
  have hlength : (validateHeader (fun a => some (contentAt 0x1000 rootDevice a))
      0x1000).visits.length = 5 := by decide +kernel
  have halign : 4 ∣ 0x1000 + fieldAt (contentAt 0x1000 rootDevice) 0x1000 .structOff := by
    decide +kernel
  have hvalid := Run.eq_mk hresult
  have hdtb : (0x1000 : UInt64).toNat = 0x1000 := rfl
  have hfollow := parsers_follow_validation (contentAt 0x1000 rootDevice) 0x1000
    (validateHeader (fun a => some (contentAt 0x1000 rootDevice a)) 0x1000).visits
  rw [hdtb] at hfollow
  exact ⟨_, hvalid, hlength, fun m hm => ((hfollow hvalid (.inl halign)).2.2 m hm).1⟩

/-- `FindDevice` does not visit all that validation has visited: it returns where the device closes
and leaves the end token. -/
theorem findDevice_leaves_end_token :
    ∃ visits, validateHeader (fun a => some (contentAt 0x1000 rootDevice a)) 0x1000 =
        ⟨visits, .ok ()⟩ ∧
      (findDevice (fun a => some (contentAt 0x1000 rootDevice a)) 0x1000 [ascii "a"]).visits ≠
        visits := by
  have hresult : (validateHeader (fun a => some (contentAt 0x1000 rootDevice a)) 0x1000).result =
      .ok () := by decide +kernel
  have hne : (findDevice (fun a => some (contentAt 0x1000 rootDevice a)) 0x1000
      [ascii "a"]).visits.length ≠
      (validateHeader (fun a => some (contentAt 0x1000 rootDevice a)) 0x1000).visits.length := by
    decide +kernel
  refine ⟨_, ?_, fun heq => hne (congrArg List.length heq)⟩
  rw [← hresult]

/-- A structure block at an odd half-word whose first token is a property. -/
def unalignedProperty : List UInt8 :=
  blobBytes 2 (propBytes 0 [] ++ finishBytes) (ascii "reg" ++ [0])

/-- Validation steps over the data of a property by its length, the parsers round the address: with
an unaligned structure block they part, and the parser meets an invalid token in a blob that
validation accepts. -/
theorem unaligned_property_is_misread :
    (validateHeader (fun a => some (contentAt 0x1000 unalignedProperty a)) 0x1000).result = .ok () ∧
      (parseMemoryMap (fun a => some (contentAt 0x1000 unalignedProperty a)) 0x1000).result =
        .error (.panic "[ERROR][DTB] invalid structure token") := by
  constructor <;> decide +kernel

end DeviceTree

end HyperBerry
