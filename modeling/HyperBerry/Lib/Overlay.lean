import Mathlib

/-!
# Overlays

A sequence of partial functions laid over one another: at each point, the last one that is defined
there decides.
-/

namespace HyperBerry

variable {α β γ : Type*}

/-- Lay `f` over `m`. -/
def overlay (m f : α → Option β) (a : α) : Option β := (f a).or (m a)

/-- After a sequence of overlays, the last one that is defined at a point decides. -/
theorem foldl_overlay (f : γ → α → Option β) (l : List γ) (m : α → Option β) (a : α) :
    l.foldl (fun m c => overlay m (f c)) m a = (l.reverse.findSome? fun c => f c a).or (m a) := by
  induction l generalizing m with
  | nil => rfl
  | cons c l ih =>
    rw [List.foldl_cons, ih, List.reverse_cons, List.findSome?_append]
    simp only [overlay, List.findSome?_cons, List.findSome?_nil, Option.or_assoc]
    cases f c a <;> rfl

end HyperBerry
