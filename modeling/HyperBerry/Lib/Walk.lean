import Mathlib

/-!
# Walks over a stream of items

A scanner reads the item at a position and says where the next one starts; a handler consumes the
items one by one, and each time goes on with a new state or returns.  `walk` drives a handler over
the items that a scanner reads and notes every item it visits.

What lies in the input is said by a relation: `R a t b` when the item `t` lies at position `a` and
the next one starts at `b`.  A `Chain` is a sequence of items that lie one after the other.  The
main result, `walk_eq_consume`, replaces the walk over the positions by a recursion over the items.
-/

namespace HyperBerry

namespace Walk

variable {ν ε ι τ σ α : Type*}

/-- A run of a walk: what it visited, and how it ended. -/
structure Run (ν ε α : Type*) where
  /-- The visits, first to last. -/
  visits : List ν
  /-- The value that was returned, or why there is none. -/
  result : Except ε α

namespace Run

/-- A run with the result written out. -/
lemma eq_mk {r : Run ν ε α} {x : Except ε α} (h : r.result = x) : r = ⟨r.visits, x⟩ := by
  rw [← h]

/-- Put a visit in front of a run. -/
def log (v : ν) (r : Run ν ε α) : Run ν ε α := ⟨v :: r.visits, r.result⟩

@[simp] lemma visits_log (v : ν) (r : Run ν ε α) : (r.log v).visits = v :: r.visits := rfl

@[simp] lemma result_log (v : ν) (r : Run ν ε α) : (r.log v).result = r.result := rfl

/-- Go on with a run once a value has been computed. -/
def after (x : Except ε τ) (k : τ → Run ν ε α) : Run ν ε α :=
  match x with
  | .error e => ⟨[], .error e⟩
  | .ok t => k t

@[simp] lemma after_ok (t : τ) (k : τ → Run ν ε α) : after (.ok t) k = k t := rfl

@[simp] lemma after_error (e : ε) (k : τ → Run ν ε α) : after (.error e) k = ⟨[], .error e⟩ := rfl

/-- A last computation on what a run returned. -/
def andThen (r : Run ν ε τ) (k : τ → Except ε α) : Run ν ε α :=
  ⟨r.visits, match r.result with
    | .error e => .error e
    | .ok t => k t⟩

/-- Go on with a run on what another run returned. -/
def bind (r : Run ν ε τ) (k : τ → Run ν ε α) : Run ν ε α :=
  match r.result with
  | .error e => ⟨r.visits, .error e⟩
  | .ok t => ⟨r.visits ++ (k t).visits, (k t).result⟩

/-- A run that went on returned only visits and results of its two parts. -/
lemma bind_cases (r : Run ν ε τ) (k : τ → Run ν ε α) :
    (∃ e, r.result = .error e ∧ r.bind k = ⟨r.visits, .error e⟩) ∨
      ∃ t, r.result = .ok t ∧ r.bind k = ⟨r.visits ++ (k t).visits, (k t).result⟩ := by
  unfold bind
  cases hr : r.result with
  | error e => exact .inl ⟨e, rfl, rfl⟩
  | ok t => exact .inr ⟨t, rfl, rfl⟩

end Run

/-- Drive `handle` over the items that `next` reads.  `note` says what is written down about a
visit, and `stuck` is the outcome when the fuel runs out. -/
def walk (next : ℕ → Except ε (ι × ℕ)) (handle : ι → σ → Except ε (σ ⊕ α)) (note : ℕ → σ → ι → ν)
    (stuck : ε) : ℕ → ℕ → σ → Run ν ε α
  | 0, _, _ => ⟨[], .error stuck⟩
  | fuel + 1, a, s =>
    Run.after (next a) fun r =>
      match handle r.1 s with
      | .error e => ⟨[note a s r.1], .error e⟩
      | .ok (.inl s') => (walk next handle note stuck fuel r.2 s').log (note a s r.1)
      | .ok (.inr x) => ⟨[note a s r.1], .ok x⟩

/-- A handler over a list of items, with what happens at its end. -/
def consume (handle : ℕ → τ → σ → Except ε (σ ⊕ α)) (note : ℕ → σ → τ → ν) :
    List (ℕ × τ) → σ → (σ → Run ν ε α) → Run ν ε α
  | [], s, k => k s
  | (a, t) :: l, s, k =>
    match handle a t s with
    | .error e => ⟨[note a s t], .error e⟩
    | .ok (.inl s') => (consume handle note l s' k).log (note a s t)
    | .ok (.inr x) => ⟨[note a s t], .ok x⟩

/-- Items that lie one after the other, with their positions. -/
inductive Chain (R : ℕ → τ → ℕ → Prop) : ℕ → List (ℕ × τ) → ℕ → Prop
  | nil (a : ℕ) : Chain R a [] a
  | cons {a b c : ℕ} {t : τ} {l : List (ℕ × τ)} :
      R a t b → Chain R b l c → Chain R a ((a, t) :: l) c

variable {R R' : ℕ → τ → ℕ → Prop} {a b c : ℕ} {l l' : List (ℕ × τ)}

/-- Two chains, one after the other. -/
lemma Chain.append (h : Chain R a l b) (h' : Chain R b l' c) : Chain R a (l ++ l') c := by
  induction h with
  | nil => exact h'
  | cons hr _ ih => exact .cons hr (ih h')

/-- A chain one item longer. -/
lemma Chain.concat {t : τ} (h : Chain R a l b) (hr : R b t c) : Chain R a (l ++ [(b, t)]) c :=
  h.append (.cons hr (.nil c))

/-- Items that move forward: a chain does not go back. -/
lemma Chain.le (hR : ∀ a t b, R a t b → a < b) (h : Chain R a l b) : a ≤ b := by
  induction h with
  | nil => exact le_rfl
  | cons hr _ ih => exact (hR _ _ _ hr).le.trans ih

/-- Where items are determined by their position, one of two chains continues the other. -/
lemma Chain.prefix_or_prefix (hR : ∀ a t b t' b', R a t b → R a t' b' → t = t' ∧ b = b')
    (h : Chain R a l b) (h' : Chain R a l' c) : l <+: l' ∨ l' <+: l := by
  induction h generalizing l' with
  | nil => exact .inl (List.nil_prefix)
  | cons hr _ ih =>
    cases h' with
    | nil => exact .inr (List.nil_prefix)
    | cons hr' hrest' =>
      obtain ⟨rfl, rfl⟩ := hR _ _ _ _ _ hr hr'
      rcases ih hrest' with hpre | hpre
      · exact .inl (List.cons_prefix_cons.mpr ⟨rfl, hpre⟩)
      · exact .inr (List.cons_prefix_cons.mpr ⟨rfl, hpre⟩)

/-- Where items are determined by their position, a chain determines its end. -/
lemma Chain.end_unique (hR : ∀ a t b t' b', R a t b → R a t' b' → t = t' ∧ b = b')
    (h : Chain R a l b) (h' : Chain R a l c) : b = c := by
  induction h with
  | nil =>
    cases h'
    rfl
  | cons hr _ ih =>
    cases h' with
    | cons hr' hrest' =>
      obtain ⟨-, rfl⟩ := hR _ _ _ _ _ hr hr'
      exact ih hrest'

/-- A walk along a chain of items consumes them one by one. -/
theorem walk_eq_consume {next : ℕ → Except ε (ι × ℕ)} {handle : ι → σ → Except ε (σ ⊕ α)}
    {note : ℕ → σ → ι → ν} {stuck : ε} (item : ℕ → τ → ι)
    (hnext : ∀ a t b, R a t b → next a = .ok (item a t, b)) (h : Chain R a l b) (n : ℕ) (s : σ) :
    walk next handle note stuck (n + l.length) a s =
      consume (fun a t => handle (item a t)) (fun a s t => note a s (item a t)) l s
        (walk next handle note stuck n b) := by
  induction h generalizing s with
  | nil => rfl
  | @cons a b c t l hr _ ih =>
    rw [List.length_cons, ← Nat.add_assoc, walk, hnext _ _ _ hr, Run.after_ok, consume]
    simp only
    cases handle (item a t) s with
    | error e => rfl
    | ok r =>
      cases r with
      | inl s' =>
        simp only
        rw [ih]
      | inr x => rfl

end Walk

end HyperBerry
