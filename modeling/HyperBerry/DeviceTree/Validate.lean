import HyperBerry.DeviceTree.Stream

/-!
# What validation accepts

`validateHeader` returns exactly on the blobs whose structure block is one balanced sequence of
tokens, nested at most `MAX_DEPTH` deep and filling the block.  The walk of the validation steps
over a property by the length of its data, while a token stream rounds addresses; the two agree when
the address is aligned, so the results ask for an aligned structure block, or for one without
properties in front of its first node, after which every address is aligned.
-/

namespace HyperBerry

namespace DeviceTree

open Memory Walk

variable {B : Blob} {a b c v : ℕ} {t : Token} {l : List (ℕ × Token)} {path : List Name}

/-- Reading a word of the structure block. -/
lemma loadBe32_eq_ok_iff_word (hend : B.structEnd < 2 ^ 64) (ha : a + 4 ≤ B.structEnd) :
    loadBe32 B.mem a = .ok v ↔ B.Word a v := by
  rw [loadBe32_eq_ok (by omega)]
  exact ⟨fun h => ⟨ha, h.2, h.1⟩, fun h => ⟨h.bytes, h.lt⟩⟩

/-- A word of the structure block can be read. -/
lemma Blob.Word.loadBe32_eq (h : B.Word a v) (hend : B.structEnd < 2 ^ 64) :
    loadBe32 B.mem a = .ok v :=
  (loadBe32_eq_ok_iff_word hend h.le).mpr h

/-- The signed difference of pointers, in order and close to each other. -/
lemma not_ptrdiffLt {p q n : ℕ} (hqp : q ≤ p) (hp : p < 2 ^ 64) (hlt : p - q < 2 ^ 63) :
    ¬ ptrdiffLt p q n ↔ n ≤ p - q := by
  rw [ptrdiffLt, sub64_of_le hqp hp]
  omega

/-! ## One token -/

/-- The validation of a node name. -/
lemma validateNode_eq_ok {depth : ℕ} {r : Item × ValidateState} (hend : B.structEnd < 2 ^ 64)
    (hc : c ≤ B.structEnd) (hdepth : depth ≤ maxDepth) :
    validateNode B.mem B.structEnd c depth = .ok r ↔
      ∃ name, B.mem.CString c name ∧ c + name.length < B.structEnd ∧ depth < maxDepth ∧
        r = (.beginNode c name.length, ⟨fdtAlign (c + name.length + 1) 0, depth + 1, false⟩) := by
  have hmod : (depth + 1) % 2 ^ 32 = depth + 1 := by
    unfold maxDepth at hdepth
    omega
  rw [validateNode, bind_eq_ok, hmod]
  constructor
  · rintro ⟨len, hlen, h⟩
    have hle := le_of_nulIndex_eq_ok hlen
    rw [add64_of_lt (by omega)] at h
    split_ifs at h with hterm hdeep
    cases h
    obtain ⟨name, rfl, hname⟩ := (nulIndex_eq_ok (by omega) (by omega)).mp hlen
    refine ⟨name, hname, by omega, by omega, ?_⟩
    rw [add64_of_lt (by omega)]
  · rintro ⟨name, hname, hlt, hdeep, rfl⟩
    refine ⟨name.length, (nulIndex_eq_ok (by omega) (by omega)).mpr ⟨name, rfl, hname⟩, ?_⟩
    rw [add64_of_lt (by omega), if_neg (by omega), if_neg (by omega), add64_of_lt (by omega)]
    rfl

/-- The validation of a property. -/
lemma validateProp_eq_ok {depth : ℕ} {r : Item × ValidateState} (hend : B.structEnd < 2 ^ 64)
    (hc : c ≤ B.structEnd) (hsize : B.structEnd - c < 2 ^ 32)
    (hstrings : B.strings + B.stringsSize < 2 ^ 64) :
    validateProp B.mem B.structEnd B.strings B.stringsSize c depth = .ok r ↔
      ∃ len nameOff name, B.Word c len ∧ B.Word (c + 4) nameOff ∧ B.PropName nameOff name ∧
        c + 8 + len ≤ B.structEnd ∧ add64 c (8 + roundUp4 len) ≤ B.structEnd ∧
        r = (.prop (c + 8) len nameOff, ⟨add64 c (8 + roundUp4 len), depth, false⟩) := by
  have hdiff : ¬ ptrdiffLt B.structEnd c 8 ↔ 8 ≤ B.structEnd - c :=
    not_ptrdiffLt hc hend (by omega)
  have hround {len : ℕ} (hlen : len ≤ B.structEnd - c - 8) :
      (len + 3) % 2 ^ 32 / 4 * 4 = roundUp4 len := by
    unfold roundUp4
    omega
  rw [validateProp]
  constructor
  · intro h
    split at h
    case isTrue => cases h
    case isFalse htrunc =>
      have height := hdiff.mp htrunc
      rw [sub64_of_le hc hend, sub64_of_le height (by omega),
        add64_of_lt (a := c) (b := 4) (by omega), add64_of_lt (a := c) (b := 8) (by omega)] at h
      obtain ⟨len, hlen, h⟩ := bind_eq_ok.mp h
      obtain ⟨nameOff, hoff, h⟩ := bind_eq_ok.mp h
      split at h
      case isTrue => cases h
      case isFalse hname =>
        obtain ⟨i, hi, h⟩ := bind_eq_ok.mp h
        have hile := le_of_nulIndex_eq_ok hi
        rw [add64_of_lt (by omega)] at hi
        split at h
        case isTrue => cases h
        case isFalse hmal =>
          rw [not_or] at hmal
          have hlen' : len ≤ B.structEnd - c - 8 := by omega
          simp only [hround hlen'] at h
          split at h
          case isTrue => cases h
          case isFalse hnext =>
            cases h
            obtain ⟨name, rfl, hstring⟩ := (nulIndex_eq_ok (by omega) (by omega)).mp hi
            refine ⟨len, nameOff, name, ?_, ?_, ⟨by omega, hstring⟩, by omega, by omega, rfl⟩
            · exact (loadBe32_eq_ok_iff_word hend (by omega)).mp hlen
            · exact (loadBe32_eq_ok_iff_word hend (by omega)).mp hoff
  · rintro ⟨len, nameOff, name, hlen, hoff, hname, hdata, hnext, rfl⟩
    have hlt := hname.lt
    have height : 8 ≤ B.structEnd - c := by omega
    rw [if_neg (hdiff.mpr height), sub64_of_le hc hend, sub64_of_le height (by omega),
      add64_of_lt (a := c) (b := 4) (by omega), add64_of_lt (a := c) (b := 8) (by omega),
      hlen.loadBe32_eq hend, ok_bind, hoff.loadBe32_eq hend, ok_bind, if_neg (by omega)]
    simp only
    rw [add64_of_lt (by omega),
      (nulIndex_eq_ok (by omega) (by omega)).mpr ⟨name, rfl, hname.string⟩, ok_bind,
      if_neg (by omega), hround (by omega), if_neg (by omega)]
    rfl

/-- A token that validation allows below the open nodes. -/
def Allowed (path : List Name) : Token → Prop
  | .beginNode _ => path.length < maxDepth
  | .endNode => path ≠ []
  | .finish => path = []
  | _ => True

/-- The open nodes stay within the bound at a token that is allowed. -/
lemma length_pathAfter_le (hpath : path.length ≤ maxDepth) (hallowed : Allowed path t) :
    (pathAfter path t).length ≤ maxDepth := by
  cases t with
  | beginNode name =>
    rw [pathAfter, List.length_append]
    exact hallowed
  | endNode =>
    rw [pathAfter, List.length_dropLast]
    omega
  | prop nameOff name value => exact hpath
  | nop => exact hpath
  | finish => exact hpath

/-- The state of the validation before and after a token. -/
def stateAt (a : ℕ) (path : List Name) (ended : Bool) : ValidateState := ⟨a, path.length, ended⟩

/-- Stepping over a name: both roundings are the same. -/
lemma fdtAlign_zero (h : a + 3 < 2 ^ 64) : fdtAlign a 0 = roundUp4 a := fdtAlign_eq h

/-- A visit to a property. -/
def Item.IsProp : Item → Prop
  | .prop _ _ _ => True
  | _ => False

/-- Validation accepts a token that lies there and is allowed. -/
lemma validateItem_of_tokenAt (hend : B.structEnd < 2 ^ 64) (hsize : B.structEnd - a < 2 ^ 32)
    (hstrings : B.strings + B.stringsSize < 2 ^ 64) (hpath : path.length ≤ maxDepth)
    (h : TokenAt B a t b) (hal : 4 ∣ a ∨ ¬ (t.item a).IsProp) (hb : b ≤ B.structEnd)
    (hallowed : Allowed path t) :
    validateItem B.mem B.structEnd B.strings B.stringsSize (stateAt a path false) =
      .ok (t.item a, stateAt b (pathAfter path t) (decide (t = .finish))) := by
  have hle := h.add_four_le
  have hdiff : ¬ ptrdiffLt B.structEnd a 4 :=
    (not_ptrdiffLt (by omega) hend (by omega)).mpr (by omega)
  rw [validateItem, stateAt, if_neg hdiff]
  simp only [add64_of_lt (a := a) (b := 4) (by omega)]
  cases h with
  | @beginNode name hword hname hlt =>
    rw [hword.loadBe32_eq hend, ok_bind]
    refine (validateNode_eq_ok hend hle hpath).mpr ⟨name, hname, hlt, hallowed, ?_⟩
    have := roundUp4_le (a + 4 + name.length + 1)
    have hround : a + 4 + name.length + 1 + 3 < 2 ^ 64 := by
      unfold roundUp4 at hb
      omega
    rw [fdtAlign_zero hround, stateAt, pathAfter, List.length_append]
    rfl
  | endNode hword =>
    rw [hword.loadBe32_eq hend, ok_bind]
    have hne : path.length ≠ 0 := fun h0 => hallowed (List.length_eq_zero_iff.mp h0)
    simp only [FDT.ofWord, if_neg hne, stateAt, pathAfter, List.length_dropLast]
    rfl
  | @prop nameOff name value hword hlen hoff hname hvalue hdata =>
    rw [hword.loadBe32_eq hend, ok_bind]
    have hnext : add64 (a + 4) (8 + roundUp4 value.length) = roundUp4 (a + 12 + value.length) := by
      obtain ⟨k, rfl⟩ := hal.resolve_right fun hno => hno trivial
      rw [add64_of_lt]
      · unfold roundUp4
        omega
      · unfold roundUp4 at hb ⊢
        omega
    refine (validateProp_eq_ok hend hle (by omega) hstrings).mpr
      ⟨value.length, nameOff, name, hlen, hoff, hname, by omega, ?_, ?_⟩
    · rw [hnext]
      exact hb
    · rw [hnext]
      rfl
  | nop hword =>
    rw [hword.loadBe32_eq hend, ok_bind]
    rfl
  | finish hword =>
    rw [hword.loadBe32_eq hend, ok_bind]
    have hnil : path = [] := hallowed
    subst hnil
    rfl

/-- An address that is rounded up past the end of the address space. -/
lemma fdtAlign_zero_of_ge (ha : a < 2 ^ 64) (h : 2 ^ 64 ≤ a + 3) : fdtAlign a 0 < 4 := by
  have hmask := and_not64_two_pow_sub_one (a := a + 3 - 2 ^ 64) (k := 2) (by omega) (by norm_num)
  have halign : fdtAlign a 0 = (a + 3 - 2 ^ 64) / 2 ^ 2 * 2 ^ 2 := by
    rw [fdtAlign, add64_of_lt (b := 0) (by omega), add64_of_ge (by omega) (by omega) (by norm_num)]
    exact hmask
  omega

/-- What a word that validation reads can stand for. -/
lemma ofWord_eq_some {tok : FDT} (h : FDT.ofWord v = some tok) :
    v = 1 ∧ tok = .beginNode ∨ v = 2 ∧ tok = .endNode ∨ v = 3 ∧ tok = .prop ∨ v = 4 ∧ tok = .nop ∨
      v = 9 ∧ tok = .finish := by
  unfold FDT.ofWord at h
  split at h <;> simp_all

/-- A token that validation accepts lies there and is allowed, unless the address of the next one
has wrapped around. -/
lemma tokenAt_of_validateItem {x : Item} {s' : ValidateState} (hend : B.structEnd < 2 ^ 64)
    (hlt : a < B.structEnd) (hsize : B.structEnd - a < 2 ^ 32)
    (hstrings : B.strings + B.stringsSize < 2 ^ 64) (hpath : path.length ≤ maxDepth)
    (hread : ∀ i, a ≤ i → i < B.structEnd → (B.mem i).isSome)
    (h : validateItem B.mem B.structEnd B.strings B.stringsSize (stateAt a path false) =
      .ok (x, s')) (hal : 4 ∣ a ∨ ¬ x.IsProp) :
    (s'.cursor < 4 ∧ 2 ^ 64 ≤ B.structEnd + 3) ∨
      ∃ t, TokenAt B a t s'.cursor ∧ x = t.item a ∧ Allowed path t ∧
        s' = stateAt s'.cursor (pathAfter path t) (decide (t = .finish)) := by
  rw [validateItem, stateAt] at h
  split at h
  case isTrue => cases h
  case isFalse hdiff =>
    have hfour : 4 ≤ B.structEnd - a := (not_ptrdiffLt hlt.le hend (by omega)).mp hdiff
    obtain ⟨token, htoken, h⟩ := bind_eq_ok.mp h
    simp only [Bool.false_eq_true, if_false, add64_of_lt (a := a) (b := 4) (by omega)] at h
    have hword : B.Word a token := (loadBe32_eq_ok_iff_word hend (by omega)).mp htoken
    cases htok : FDT.ofWord token with
    | none =>
      rw [htok] at h
      cases h
    | some tok =>
      rw [htok] at h
      rcases ofWord_eq_some htok with ⟨rfl, rfl⟩ | ⟨rfl, rfl⟩ | ⟨rfl, rfl⟩ | ⟨rfl, rfl⟩ | ⟨rfl, rfl⟩
      · obtain ⟨name, hname, hterm, hdeep, hr⟩ :=
          (validateNode_eq_ok hend (by omega) hpath).mp h
        cases hr
        by_cases hwrap : 2 ^ 64 ≤ a + 4 + name.length + 1 + 3
        · exact .inl ⟨fdtAlign_zero_of_ge (by omega) hwrap, by omega⟩
        · rw [fdtAlign_zero (by omega)]
          refine .inr ⟨.beginNode name, .beginNode hword hname hterm, rfl, hdeep, ?_⟩
          rw [stateAt, pathAfter, List.length_append]
          rfl
      · simp only at h
        split at h
        case isTrue => cases h
        case isFalse hne =>
          cases h
          refine .inr ⟨.endNode, .endNode hword, rfl, ?_, ?_⟩
          · rintro rfl
            exact hne rfl
          · rw [stateAt, pathAfter, List.length_dropLast]
            rfl
      · obtain ⟨len, nameOff, name, hlen, hoff, hname, hdata, hnext, hr⟩ :=
          (validateProp_eq_ok hend (by omega) (by omega) hstrings).mp h
        cases hr
        obtain ⟨value, rfl, hvalue⟩ := exists_hasBytes (m := B.mem) (a := a + 12) (n := len)
          fun i hi => hread _ (by omega) (by omega)
        obtain ⟨k, rfl⟩ : 4 ∣ a := hal.resolve_right fun hno => hno trivial
        by_cases hwrap : 2 ^ 64 ≤ 4 * k + 4 + (8 + roundUp4 value.length)
        · have hup := roundUp4_le value.length
          refine .inl ⟨?_, by omega⟩
          simp only [add64]
          omega
        · have heq : add64 (4 * k + 4) (8 + roundUp4 value.length) =
              roundUp4 (4 * k + 12 + value.length) := by
            rw [add64_of_lt (by omega)]
            unfold roundUp4
            omega
          rw [heq]
          exact .inr ⟨.prop nameOff name value,
            .prop hword hlen hoff hname hvalue (by omega), rfl, trivial, rfl⟩
      · cases h
        exact .inr ⟨.nop, .nop hword, rfl, trivial, rfl⟩
      · simp only at h
        split at h
        case isTrue => cases h
        case isFalse hzero =>
          cases h
          have hnil : path = [] := List.length_eq_zero_iff.mp (not_not.mp hzero)
          subst hnil
          exact .inr ⟨.finish, .finish hword, rfl, rfl, rfl⟩

/-! ## The whole block -/

/-- No property is visited before the first node. -/
def PropsAfterNode : List Visit → Prop
  | [] => True
  | ⟨_, _, .beginNode _ _⟩ :: _ => True
  | ⟨_, _, .prop _ _ _⟩ :: _ => False
  | ⟨_, _, _⟩ :: visits => PropsAfterNode visits

/-- A first visit at an address that is not aligned is not to a property. -/
lemma PropsAfterNode.not_isProp {v : Visit} {visits : List Visit}
    (h : PropsAfterNode (v :: visits)) : ¬ v.item.IsProp := by
  obtain ⟨addr, depth, item⟩ := v
  intro hprop
  cases item <;> first | exact hprop | exact h

/-- Addresses stay aligned, and become so at the first node. -/
lemma TokenAt.aligned_or (h : TokenAt B a t b) {depth : ℕ} {visits : List Visit}
    (hal : 4 ∣ a ∨ PropsAfterNode (⟨a, depth, t.item a⟩ :: visits)) :
    4 ∣ b ∨ PropsAfterNode visits := by
  rcases hal with hdvd | hafter
  · exact .inl (h.four_dvd hdvd)
  · cases h with
    | beginNode => exact .inl (four_dvd_roundUp4 _)
    | prop => exact absurd hafter id
    | endNode => exact .inr hafter
    | nop => exact .inr hafter
    | finish => exact .inr hafter

/-- Validation reads on only where the end is ahead and close. -/
lemma not_ptrdiffLt_of_validateItem {s s' : ValidateState} {x : Item}
    (h : validateItem B.mem B.structEnd B.strings B.stringsSize s = .ok (x, s')) :
    ¬ ptrdiffLt B.structEnd s.cursor 4 ∧ s.hasEnded = false := by
  rw [validateItem] at h
  split at h
  case isTrue => cases h
  case isFalse hdiff =>
    obtain ⟨token, -, h⟩ := bind_eq_ok.mp h
    refine ⟨hdiff, ?_⟩
    by_contra hended
    rw [Bool.not_eq_false] at hended
    simp only [hended, if_true] at h
    cases h

/-- One pass of the validation loop that returns. -/
lemma validateLoop_succ {fuel : ℕ} {s s' : ValidateState} {visits : List Visit}
    (h : validateLoop B.mem B.structEnd B.strings B.stringsSize (fuel + 1) s = ⟨visits, .ok s'⟩) :
    (B.structEnd ≤ s.cursor ∧ visits = [] ∧ s' = s) ∨
      ∃ x s₁ rest, s.cursor < B.structEnd ∧
        validateItem B.mem B.structEnd B.strings B.stringsSize s = .ok (x, s₁) ∧
        validateLoop B.mem B.structEnd B.strings B.stringsSize fuel s₁ = ⟨rest, .ok s'⟩ ∧
        visits = ⟨s.cursor, s.depth, x⟩ :: rest := by
  rw [validateLoop] at h
  split at h
  case isTrue hlt =>
    right
    cases hitem : validateItem B.mem B.structEnd B.strings B.stringsSize s with
    | error e =>
      rw [hitem] at h
      cases h
    | ok r =>
      rw [hitem, Run.after_ok] at h
      obtain ⟨x, s₁⟩ := r
      simp only [Run.log, Run.mk.injEq] at h
      refine ⟨x, s₁, _, hlt, rfl, ?_, h.1.symm⟩
      rw [← h.2]
  case isFalse hge =>
    cases h
    exact .inl ⟨by omega, rfl, rfl⟩

/-- The loop does not return from an address that has wrapped around. -/
lemma validateLoop_wrapped {fuel : ℕ} {s s' : ValidateState} {visits : List Visit}
    (hend : B.structEnd < 2 ^ 64) (hwrap : 2 ^ 64 ≤ B.structEnd + 3) (hcur : s.cursor < 4)
    (h : validateLoop B.mem B.structEnd B.strings B.stringsSize fuel s = ⟨visits, .ok s'⟩) :
    False := by
  cases fuel with
  | zero => cases h
  | succ fuel =>
    rcases validateLoop_succ h with ⟨hle, -⟩ | ⟨x, s₁, rest, -, hitem, -⟩
    · omega
    · refine (not_ptrdiffLt_of_validateItem hitem).1 (.inr ?_)
      rw [sub64_of_le (by omega) hend]
      omega

/-- After the end token the loop returns at once. -/
lemma validateLoop_ended {fuel : ℕ} {s s' : ValidateState} {visits : List Visit}
    (hended : s.hasEnded = true)
    (h : validateLoop B.mem B.structEnd B.strings B.stringsSize fuel s = ⟨visits, .ok s'⟩) :
    visits = [] ∧ s' = s := by
  cases fuel with
  | zero => cases h
  | succ fuel =>
    rcases validateLoop_succ h with ⟨-, hvisits, hs⟩ | ⟨x, s₁, rest, -, hitem, -⟩
    · exact ⟨hvisits, hs⟩
    · rw [(not_ptrdiffLt_of_validateItem hitem).2] at hended
      cases hended

/-- The validation loop that returns at the end of the block, after the end token, has visited a
balanced sequence of tokens. -/
lemma tokens_of_validateLoop {fuel : ℕ} {s' : ValidateState} {visits : List Visit}
    (hend : B.structEnd < 2 ^ 64) (hsize : B.structEnd - a < 2 ^ 32)
    (hstrings : B.strings + B.stringsSize < 2 ^ 64) (hpath : path.length ≤ maxDepth)
    (hread : ∀ i, a ≤ i → i < B.structEnd → (B.mem i).isSome)
    (h : validateLoop B.mem B.structEnd B.strings B.stringsSize fuel (stateAt a path false) =
      ⟨visits, .ok s'⟩)
    (hended : s'.hasEnded = true) (hcur : s'.cursor = B.structEnd)
    (hal : 4 ∣ a ∨ PropsAfterNode visits) :
    ∃ l, Tokens B a l B.structEnd ∧ Balanced path l ∧ nesting path l ≤ maxDepth ∧
      visits = visitsOf path l := by
  induction fuel generalizing a path visits with
  | zero => cases h
  | succ fuel ih =>
    rcases validateLoop_succ h with ⟨-, -, rfl⟩ | ⟨x, s₁, rest, hlt, hitem, hrest, rfl⟩
    · cases hended
    have hlt : a < B.structEnd := hlt
    have hprop : 4 ∣ a ∨ ¬ x.IsProp := hal.imp_right PropsAfterNode.not_isProp
    rcases tokenAt_of_validateItem hend hlt hsize hstrings hpath hread hitem hprop with
      ⟨hwrap, hend'⟩ | ⟨t, ht, rfl, hallowed, hs₁⟩
    · exact (validateLoop_wrapped hend hend' hwrap hrest).elim
    -- the end token ends the loop; after any other token it goes on
    by_cases hfin : t = .finish
    · subst hfin
      obtain ⟨rfl, rfl⟩ := validateLoop_ended (by rw [hs₁]; rfl) hrest
      have hnil : path = [] := hallowed
      subst hnil
      rw [hcur] at ht
      exact ⟨[(a, .finish)], .cons ht (.nil _), ⟨rfl, rfl⟩, Nat.zero_le _, rfl⟩
    · rw [hs₁, decide_eq_false hfin] at hrest
      have hpath' := length_pathAfter_le hpath hallowed
      obtain ⟨l, htokens, hbal, hnest, rfl⟩ := ih (by have := ht.lt; omega) hpath'
        (fun i hi => hread i (ht.lt.le.trans hi)) hrest (ht.aligned_or hal)
      refine ⟨(a, t) :: l, .cons ht htokens, hbal.cons hfin ?_, max_le hpath hnest, rfl⟩
      rintro rfl
      exact hallowed

/-- The validation loop returns on a balanced sequence of tokens that fills the block. -/
lemma validateLoop_of_tokens {n : ℕ} (hend : B.structEnd < 2 ^ 64)
    (hsize : B.structEnd - a < 2 ^ 32) (hstrings : B.strings + B.stringsSize < 2 ^ 64)
    (h : Tokens B a l B.structEnd) (hbal : Balanced path l) (hnest : nesting path l ≤ maxDepth)
    (hal : 4 ∣ a ∨ PropsAfterNode (visitsOf path l)) :
    validateLoop B.mem B.structEnd B.strings B.stringsSize (n + l.length + 1)
      (stateAt a path false) = ⟨visitsOf path l, .ok (stateAt B.structEnd [] true)⟩ := by
  induction l generalizing a path n with
  | nil => exact absurd hbal id
  | cons p l ih =>
    cases h with
    | @cons _ b _ t _ ht hrest =>
      have hpath : path.length ≤ maxDepth := (le_max_left _ _).trans hnest
      have hnext : nesting (pathAfter path t) l ≤ maxDepth := (le_max_right _ _).trans hnest
      have hb : b ≤ B.structEnd := hrest.le fun _ _ _ => TokenAt.lt
      have hallowed : Allowed path t := by
        cases t with
        | beginNode name =>
          have := (length_le_nesting _ _).trans hnext
          rw [pathAfter, List.length_append] at this
          exact this
        | endNode => exact hbal.1
        | prop nameOff name value => trivial
        | nop => trivial
        | finish => exact hbal.1
      have hlt : a < B.structEnd := by
        have := ht.add_four_le
        omega
      rw [List.length_cons, validateLoop, stateAt, if_pos hlt]
      have hitem := validateItem_of_tokenAt hend hsize hstrings hpath ht
        (hal.imp_right PropsAfterNode.not_isProp) hb hallowed
      rw [stateAt] at hitem
      rw [hitem, Run.after_ok]
      rcases hbal.cons_cases with ⟨rfl, rfl, rfl⟩ | ⟨hfin, -, hbal'⟩
      · cases hrest
        have hloop : validateLoop B.mem B.structEnd B.strings B.stringsSize (n + 1)
            (stateAt B.structEnd [] true) = ⟨[], .ok (stateAt B.structEnd [] true)⟩ := by
          rw [validateLoop, if_neg (by simp [stateAt])]
        exact congrArg (Run.log _) hloop
      · have := ih (n := n) (by have := ht.lt; omega) hrest hbal' hnext (ht.aligned_or hal)
        rw [decide_eq_false hfin, ← Nat.add_assoc, this]
        rfl

/-- One node too many below the open ones. -/
lemma validateItem_of_deep {name : Name} (hend : B.structEnd < 2 ^ 64)
    (hsize : B.structEnd - a < 2 ^ 32) (hpath : path.length = maxDepth)
    (h : TokenAt B a (.beginNode name) b) :
    validateItem B.mem B.structEnd B.strings B.stringsSize (stateAt a path false) =
      .error (.panic "[ERROR][DTB] device tree nesting is too deep") := by
  have hle := h.add_four_le
  have hdiff : ¬ ptrdiffLt B.structEnd a 4 :=
    (not_ptrdiffLt (by omega) hend (by omega)).mpr (by omega)
  rw [validateItem, stateAt, if_neg hdiff]
  simp only [add64_of_lt (a := a) (b := 4) (by omega)]
  cases h with
  | beginNode hword hname hlt =>
    rw [hword.loadBe32_eq hend, ok_bind]
    simp only [FDT.ofWord, hpath]
    rw [if_neg Bool.false_ne_true, validateNode,
      (nulIndex_eq_ok (by omega) (by omega)).mpr ⟨name, rfl, hname⟩, ok_bind,
      add64_of_lt (by omega), if_neg (by omega), if_pos (by decide)]

/-- The validation loop panics on a sequence of tokens that is nested too deep. -/
lemma validateLoop_of_deep {n : ℕ} (hend : B.structEnd < 2 ^ 64)
    (hsize : B.structEnd - a < 2 ^ 32) (hstrings : B.strings + B.stringsSize < 2 ^ 64)
    (h : Tokens B a l B.structEnd) (hbal : Balanced path l) (hpath : path.length ≤ maxDepth)
    (hdeep : maxDepth < nesting path l) (hal : 4 ∣ a) :
    (validateLoop B.mem B.structEnd B.strings B.stringsSize (n + l.length)
        (stateAt a path false)).result =
      .error (.panic "[ERROR][DTB] device tree nesting is too deep") := by
  induction l generalizing a path n with
  | nil => exact absurd hbal id
  | cons p l ih =>
    cases h with
    | @cons _ b _ t _ ht hrest =>
      have hlt : a < B.structEnd := by
        have := ht.add_four_le
        omega
      have hb : b ≤ B.structEnd := hrest.le fun _ _ _ => TokenAt.lt
      rw [List.length_cons, ← Nat.add_assoc, validateLoop, stateAt, if_pos hlt, ← stateAt]
      have hnext : maxDepth < nesting (pathAfter path t) l := by
        rw [nesting] at hdeep
        omega
      -- either the node is one too many, or the loop goes on below the bound
      by_cases hone : (∃ name, t = .beginNode name) ∧ path.length = maxDepth
      · obtain ⟨⟨name, rfl⟩, hlen⟩ := hone
        rw [validateItem_of_deep hend hsize hlen ht]
        rfl
      · have hallowed : Allowed path t := by
          cases t with
          | beginNode name => exact lt_of_le_of_ne hpath fun hlen => hone ⟨⟨name, rfl⟩, hlen⟩
          | endNode => exact hbal.1
          | prop nameOff name value => trivial
          | nop => trivial
          | finish => exact hbal.1
        have hpath' := length_pathAfter_le hpath hallowed
        rw [validateItem_of_tokenAt hend hsize hstrings hpath ht (.inl hal) hb hallowed,
          Run.after_ok]
        rcases hbal.cons_cases with ⟨rfl, rfl, rfl⟩ | ⟨hfin, -, hbal'⟩
        · exact absurd hnext (Nat.not_lt_zero _)
        · have hrec := ih (n := n) (by have := ht.lt; omega) hrest hbal' hpath' hnext
            (ht.four_dvd hal)
          rw [decide_eq_false hfin]
          exact hrec

/-! ## The header -/

/-- A header word has 32 bits. -/
lemma lt_of_loadBe32_eq_ok {m : Memory} (h : loadBe32 m a = .ok v) : v < 2 ^ 32 := by
  rw [loadBe32, bind_eq_ok] at h
  obtain ⟨w, -, hv⟩ := h
  cases hv
  unfold be32
  omega

/-- The header at an address passes the checks: its fields, what they have to satisfy, and the blob
does not wrap around. -/
structure ValidHeader (m : Memory) (dtb : ℕ) (f : HeaderField → ℕ) : Prop where
  /-- The blob is not at the null address. -/
  ne_zero : dtb ≠ 0
  /-- The blob ends in the address space. -/
  fits : dtb + f .totalSize < 2 ^ 64
  /-- The bytes of the fields. -/
  words : ∀ field : HeaderField, m.HasBytes (dtb + field.offset) (beBytes 4 (f field))
  /-- The fields have 32 bits. -/
  lt : ∀ field : HeaderField, f field < 2 ^ 32
  /-- The magic number. -/
  magic : f .magic = fdtMagic
  /-- The header lies in the blob. -/
  total : fdtHeaderSize ≤ f .totalSize
  /-- The structure block lies in the blob. -/
  structs : inBounds (f .totalSize) (f .structOff) (f .sizeStructs)
  /-- The strings block lies in the blob. -/
  strings : inBounds (f .totalSize) (f .stringsOff) (f .sizeStrings)
  /-- The end of the reservation map lies in the blob. -/
  reserved : inBounds (f .totalSize) (f .memRsvMapOff) 16

/-- The blob with the given header fields. -/
def blobOf (m : Memory) (dtb : ℕ) (f : HeaderField → ℕ) : Blob where
  mem := m
  structEnd := dtb + f .structOff + f .sizeStructs
  strings := dtb + f .stringsOff
  stringsSize := f .sizeStrings

/-- A field lies in the header. -/
lemma HeaderField.offset_le (field : HeaderField) : field.offset + 4 ≤ fdtHeaderSize := by
  cases field <;> decide

variable {m m' : Memory} {dtb : ℕ} {f : HeaderField → ℕ}

namespace ValidHeader

/-- The structure block ends inside the address space. -/
lemma structEnd_le (h : ValidHeader m dtb f) :
    (blobOf m dtb f).structEnd ≤ dtb + f .totalSize := by
  obtain ⟨hoff, hsize⟩ := h.structs
  simp only [blobOf]
  omega

/-- The strings block ends inside the address space. -/
lemma strings_le (h : ValidHeader m dtb f) :
    (blobOf m dtb f).strings + (blobOf m dtb f).stringsSize ≤ dtb + f .totalSize := by
  obtain ⟨hoff, hsize⟩ := h.strings
  simp only [blobOf]
  omega

/-- The fields of the header can be read. -/
lemma header_eq (h : ValidHeader m dtb f) (field : HeaderField) :
    header m dtb field = .ok (f field) := by
  have hoff := field.offset_le
  have hfits := h.fits
  have htotal := h.total
  rw [header, add64_of_lt (by omega), loadBe32_eq_ok (by omega)]
  exact ⟨h.words field, h.lt field⟩

/-- The header in a memory that agrees on it. -/
lemma congr (h : ValidHeader m dtb f) (hm : m.AgreeOn m' dtb (dtb + fdtHeaderSize)) :
    ValidHeader m' dtb f where
  ne_zero := h.ne_zero
  fits := h.fits
  words field := (h.words field).congr (hm.mono (Nat.le_add_right _ _) (by
    have := field.offset_le
    rw [length_beBytes]
    omega))
  lt := h.lt
  magic := h.magic
  total := h.total
  structs := h.structs
  strings := h.strings
  reserved := h.reserved

/-- The fields of a header are unique. -/
lemma unique {g : HeaderField → ℕ} (h : ValidHeader m dtb f) (h' : ValidHeader m dtb g) :
    f = g := by
  funext field
  have heq := (h.header_eq field).symm.trans (h'.header_eq field)
  exact Except.ok.inj heq

/-- The header checks pass. -/
lemma checkHeader_eq (h : ValidHeader m dtb f) :
    checkHeader m dtb = .ok ⟨f .totalSize, f .structOff, f .sizeStructs, f .stringsOff,
      f .sizeStrings⟩ := by
  have htotal := h.total
  simp only [checkHeader, if_neg h.ne_zero, h.header_eq, ok_bind, h.magic, h.structs, h.strings,
    h.reserved, ne_eq, not_true_eq_false, or_false, false_or, if_neg (not_lt.mpr htotal), if_false]
  rfl

/-- The block pointers of the parsers. -/
lemma blockPointers_eq (h : ValidHeader m dtb f) :
    blockPointers m dtb = .ok ⟨dtb + f .structOff, dtb + f .stringsOff,
      (blobOf m dtb f).structEnd⟩ := by
  obtain ⟨hoff, hsize⟩ := h.structs
  obtain ⟨hoff', -⟩ := h.strings
  have hfits := h.fits
  simp only [blockPointers, h.header_eq, ok_bind, blobOf]
  rw [add64_of_lt (a := dtb) (b := f .structOff) (by omega), add64_of_lt (by omega),
    add64_of_lt (by omega)]
  rfl

/-- Behind a valid header, validation is the loop over the structure block. -/
lemma validateHeader_eq (h : ValidHeader m dtb f) :
    validateHeader m dtb =
      (validateLoop m (blobOf m dtb f).structEnd (blobOf m dtb f).strings
        (blobOf m dtb f).stringsSize loopFuel (stateAt (dtb + f .structOff) [] false)).andThen
        fun s => if s.hasEnded = false ∨ s.cursor ≠ (blobOf m dtb f).structEnd then
            .error (.panic "[ERROR][DTB] malformed structure block")
          else .ok () := by
  obtain ⟨hoff, hsize⟩ := h.structs
  obtain ⟨hoff', -⟩ := h.strings
  have hfits := h.fits
  have hstart : add64 dtb (f .structOff) = dtb + f .structOff := add64_of_lt (by omega)
  have hend : add64 (dtb + f .structOff) (f .sizeStructs) = dtb + f .structOff + f .sizeStructs :=
    add64_of_lt (by omega)
  have hstrings : add64 dtb (f .stringsOff) = dtb + f .stringsOff := add64_of_lt (by omega)
  have htotal : add64 dtb (f .totalSize) = dtb + f .totalSize := add64_of_lt (by omega)
  have hnowrap : ¬ dtb + f .totalSize < dtb := by omega
  simp only [validateHeader, h.checkHeader_eq, Run.after_ok, hstart, hend, hstrings,
    htotal, hnowrap, or_false, blobOf, stateAt, List.length_nil]
  exact congrArg (Run.andThen _) (funext fun s => if_congr Iff.rfl rfl rfl)

end ValidHeader

/-- The fields of a header, from those that `checkHeader` reads. -/
def readFields (total structOff stringsOff memRsvMapOff stringsSize structSize : ℕ) :
    HeaderField → ℕ
  | .magic => fdtMagic
  | .totalSize => total
  | .structOff => structOff
  | .stringsOff => stringsOff
  | .memRsvMapOff => memRsvMapOff
  | .sizeStrings => stringsSize
  | .sizeStructs => structSize

/-- Header checks that pass have read a header. -/
lemma header_of_checkHeader {h : Header} (hcheck : checkHeader m dtb = .ok h)
    (hdtb : dtb < 2 ^ 64) (hfits : ¬ add64 dtb h.total < dtb) :
    ∃ f, ValidHeader m dtb f ∧
      h = ⟨f .totalSize, f .structOff, f .sizeStructs, f .stringsOff, f .sizeStrings⟩ := by
  rw [checkHeader] at hcheck
  split at hcheck
  case isTrue => cases hcheck
  case isFalse hzero =>
    obtain ⟨total, htotal, hcheck⟩ := bind_eq_ok.mp hcheck
    obtain ⟨structOff, hstructOff, hcheck⟩ := bind_eq_ok.mp hcheck
    obtain ⟨structSize, hstructSize, hcheck⟩ := bind_eq_ok.mp hcheck
    obtain ⟨stringsOff, hstringsOff, hcheck⟩ := bind_eq_ok.mp hcheck
    obtain ⟨stringsSize, hstringsSize, hcheck⟩ := bind_eq_ok.mp hcheck
    obtain ⟨magic, hmagic, hcheck⟩ := bind_eq_ok.mp hcheck
    split at hcheck
    case isTrue => cases hcheck
    case isFalse hvalid =>
      obtain ⟨memRsvMapOff, hmemRsvMapOff, hcheck⟩ := bind_eq_ok.mp hcheck
      split at hcheck
      case isTrue => cases hcheck
      case isFalse hreserved =>
        cases hcheck
        simp only [not_or, not_not, ne_eq, not_lt] at hvalid hreserved hfits
        obtain ⟨rfl, hsize, hstructs, hstrings⟩ := hvalid
        have htotal' := lt_of_loadBe32_eq_ok htotal
        have hend : dtb + total < 2 ^ 64 := by
          unfold add64 at hfits
          omega
        let f := readFields total structOff stringsOff memRsvMapOff stringsSize structSize
        have hf : ∀ field, header m dtb field = .ok (f field) := by
          intro field
          cases field
          · exact hmagic
          · exact htotal
          · exact hstructOff
          · exact hstringsOff
          · exact hmemRsvMapOff
          · exact hstringsSize
          · exact hstructSize
        have hword : ∀ field : HeaderField,
            m.HasBytes (dtb + field.offset) (beBytes 4 (f field)) ∧ f field < 2 ^ 32 := by
          intro field
          have hoff := field.offset_le
          have hread := hf field
          rwa [header, add64_of_lt (by omega), loadBe32_eq_ok (by omega)] at hread
        exact ⟨f, ⟨hzero, hend, fun field => (hword field).1, fun field => (hword field).2, rfl,
          hsize, hstructs, hstrings, hreserved⟩, rfl⟩

/-! ## Acceptance -/

/-- A stretch of the block has room for its tokens. -/
lemma length_le_of_tokens (h : Tokens B a l b) : a + l.length ≤ b := by
  induction h with
  | nil => exact le_rfl
  | cons ht _ ih =>
    have := ht.lt
    rw [List.length_cons]
    omega

/-- Validation accepts a blob whose structure block is a balanced sequence of tokens that is not
nested too deep. -/
theorem validateHeader_of_tokens (hv : ValidHeader m dtb f)
    (h : Tokens (blobOf m dtb f) (dtb + f .structOff) l (blobOf m dtb f).structEnd)
    (hbal : Balanced [] l) (hnest : nesting [] l ≤ maxDepth)
    (hal : 4 ∣ dtb + f .structOff ∨ PropsAfterNode (visitsOf [] l)) :
    validateHeader m dtb = ⟨visitsOf [] l, .ok ()⟩ := by
  have hend := hv.structEnd_le
  have hstrings := hv.strings_le
  have hfits := hv.fits
  have hsize := hv.lt .sizeStructs
  have hlen := length_le_of_tokens h
  obtain ⟨n, hn⟩ : ∃ n, loopFuel = n + l.length + 1 := by
    refine ⟨loopFuel - (l.length + 1), ?_⟩
    rw [loopFuel]
    omega
  have hloop := validateLoop_of_tokens (n := n) (by omega)
    (by simp only [blobOf]; omega) (by omega) h hbal hnest hal
  rw [hv.validateHeader_eq, hn]
  have hmem : (blobOf m dtb f).mem = m := rfl
  rw [hmem] at hloop
  rw [hloop, Run.andThen]
  simp [stateAt]

/-- Validation panics on a blob whose structure block is nested too deep. -/
theorem validateHeader_of_deep (hv : ValidHeader m dtb f)
    (h : Tokens (blobOf m dtb f) (dtb + f .structOff) l (blobOf m dtb f).structEnd)
    (hbal : Balanced [] l) (hdeep : maxDepth < nesting [] l) (hal : 4 ∣ dtb + f .structOff) :
    (validateHeader m dtb).result =
      .error (.panic "[ERROR][DTB] device tree nesting is too deep") := by
  have hend := hv.structEnd_le
  have hstrings := hv.strings_le
  have hfits := hv.fits
  have hsize := hv.lt .sizeStructs
  have hlen := length_le_of_tokens h
  obtain ⟨n, hn⟩ : ∃ n, loopFuel = n + l.length := by
    refine ⟨loopFuel - l.length, ?_⟩
    rw [loopFuel]
    omega
  have hloop := validateLoop_of_deep (n := n) (by omega)
    (by simp only [blobOf]; omega) (by omega) h hbal (Nat.zero_le _) hdeep hal
  have hmem : (blobOf m dtb f).mem = m := rfl
  rw [hmem] at hloop
  rw [hv.validateHeader_eq, hn, Run.andThen, hloop]

/-- A blob that validation accepts has a valid header, and, if its tokens lie at aligned addresses,
a structure block that is a balanced sequence of the tokens that validation visited. -/
theorem tokens_of_validateHeader {visits : List Visit} (hdtb : dtb < 2 ^ 64)
    (h : validateHeader m dtb = ⟨visits, .ok ()⟩) :
    ∃ f, ValidHeader m dtb f ∧
      ((∀ i, dtb + f .structOff ≤ i → i < (blobOf m dtb f).structEnd → (m i).isSome) →
        4 ∣ dtb + f .structOff ∨ PropsAfterNode visits →
        ∃ l, Tokens (blobOf m dtb f) (dtb + f .structOff) l (blobOf m dtb f).structEnd ∧
          Balanced [] l ∧ nesting [] l ≤ maxDepth ∧ visits = visitsOf [] l) := by
  rw [validateHeader] at h
  cases hcheck : checkHeader m dtb with
  | error e =>
    rw [hcheck] at h
    cases h
  | ok hd =>
    rw [hcheck, Run.after_ok] at h
    simp only [Run.andThen, Run.mk.injEq] at h
    obtain ⟨rfl, h⟩ := h
    generalize hrun : validateLoop m _ _ _ loopFuel _ = run at h ⊢
    obtain ⟨visits, result⟩ := run
    cases result with
    | error e => cases h
    | ok s =>
      simp only at h
      split at h
      case isTrue => cases h
      case isFalse hok =>
        rw [not_or, not_or, Bool.not_eq_false, not_not] at hok
        obtain ⟨hended, hcur, hfits⟩ := hok
        obtain ⟨f, hv, rfl⟩ := header_of_checkHeader hcheck hdtb hfits
        refine ⟨f, hv, fun hread hal => ?_⟩
        have hend := hv.structEnd_le
        have hstrings := hv.strings_le
        have hfits := hv.fits
        have hsize := hv.lt .sizeStructs
        obtain ⟨hoff, hsize'⟩ := hv.structs
        obtain ⟨hoff', -⟩ := hv.strings
        have hstart : add64 dtb (f .structOff) = dtb + f .structOff := add64_of_lt (by omega)
        have hend' : add64 (dtb + f .structOff) (f .sizeStructs) =
            (blobOf m dtb f).structEnd := add64_of_lt (by omega)
        have hstrings' : add64 dtb (f .stringsOff) = (blobOf m dtb f).strings :=
          add64_of_lt (by omega)
        simp only [hstart, hend', hstrings'] at hrun hcur
        exact tokens_of_validateLoop (B := blobOf m dtb f) (by omega)
          (by simp only [blobOf]; omega) (by omega) (Nat.zero_le _) hread hrun hended hcur hal

end DeviceTree

end HyperBerry
