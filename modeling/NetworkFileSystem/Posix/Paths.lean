import Mathlib.Data.List.Induction
import NetworkFileSystem.Posix.Walk

/-!
# Paths as strings

A path in normal form is a slash before each of its names (`joined`), and its components are these
names again (**`components_joined`**).
-/

namespace Posix

variable {p q : CStr} {x : Name} {l : List Name}

/-- A slash separates the components before it from those after it. -/
theorem components_append_slash (p q : CStr) :
    components (p ++ '/' :: q) = components p ++ components q := by
  simp [components, List.splitOn_append_cons_self]

@[simp] theorem components_nil : components [] = [] := by
  simp [components]

@[simp] theorem components_slash (p : CStr) : components ('/' :: p) = components p := by
  simpa using components_append_slash [] p

/-- A string without a slash is one component. -/
theorem components_name (hx : x ≠ []) (hslash : '/' ∉ x) : components x = [x] := by
  simp [components, List.splitOn_eq_singleton hslash, hx]

/-- A path of slashes has no components. -/
theorem components_eq_nil : components p = [] ↔ ∀ c ∈ p, c = '/' := by
  induction p with
  | nil => simp
  | cons a p ih =>
      by_cases ha : a = '/'
      · simp [ha, ih]
      · obtain ⟨y, rest, hy⟩ := List.exists_cons_of_ne_nil (List.splitOn_ne_nil '/' p)
        simp [components, List.splitOn_cons_eq_if_modifyHead, ha, hy]

/-- Only the empty path leads nowhere at all. -/
theorem walkComps_eq_nil : walkComps p = [] ↔ p = [] := by
  constructor
  · intro h
    simp only [walkComps, List.append_eq_nil_iff, ite_eq_right_iff, List.cons_ne_self,
      imp_false, Bool.not_eq_true] at h
    obtain ⟨hc, ht⟩ := h
    by_contra hp
    have hlast := components_eq_nil.mp hc _ (List.getLast_mem hp)
    simp [trailing, List.getLast?_eq_some_getLast hp, hlast] at ht
  · rintro rfl
    simp [walkComps, trailing]

/-! ## Normal form -/

/-- A name that can stand between two slashes and leads down. -/
structure Plain (x : Name) : Prop where
  ne_nil : x ≠ []
  slash : '/' ∉ x
  ne_dot : x ≠ dot
  ne_dotdot : x ≠ dotdot

/-- The absolute path with these components. -/
def joined (l : List Name) : CStr := l.flatMap fun x => '/' :: x

@[simp] theorem joined_nil : joined [] = [] := rfl

@[simp] theorem joined_cons (x : Name) (l : List Name) : joined (x :: l) = '/' :: x ++ joined l :=
  rfl

theorem joined_concat (l : List Name) (x : Name) : joined (l ++ [x]) = joined l ++ '/' :: x := by
  simp [joined]

/-- Only without names is the path empty. -/
theorem joined_eq_nil : joined l = [] ↔ l = [] := by
  cases l <;> simp

/-- **The components of a joined path** are the names that were joined. -/
theorem components_joined (h : ∀ x ∈ l, Plain x) : components (joined l) = l := by
  induction l with
  | nil => simp
  | cons x l ih =>
      have hx : Plain x := h x (by simp)
      have htail : components (joined l) = l := ih fun y hy => h y (by simp [hy])
      cases l with
      | nil => simp [components_name hx.ne_nil hx.slash]
      | cons y l =>
          rw [joined_cons, List.cons_append, components_slash]
          have hsplit := components_append_slash x (y ++ joined l)
          rw [components_name hx.ne_nil hx.slash] at hsplit
          rw [joined_cons, List.cons_append, components_slash] at htail
          rw [joined_cons, List.cons_append, hsplit, htail]
          rfl

end Posix
