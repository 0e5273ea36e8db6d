import Mathlib.Data.List.Basic
import Mathlib.Logic.Function.Basic

/-!
# Framing: length prefixes and terminators

Two ways of writing several strings one after another so that the result can
be taken apart again.  A terminated field ends at the first occurrence of a
symbol it does not contain.  A framed field announces its own length first,
and may then contain any symbol whatsoever.
-/

namespace Framing

variable {α : Type*}

/-- A symbol that neither text contains ends both at the same place. -/
theorem append_cons_cancel {a : α} {x y r s : List α} (hx : a ∉ x) (hy : a ∉ y)
    (h : x ++ a :: r = y ++ a :: s) : x = y ∧ r = s := by
  rcases List.append_eq_append_iff.mp h with ⟨u, hu, hr⟩ | ⟨u, hu, hs⟩
  · cases u with
    | nil => exact ⟨by simpa using hu.symm, by simpa using hr⟩
    | cons b u =>
        obtain ⟨rfl, -⟩ := List.cons.inj hr
        exact absurd (by simp [hu]) hy
  · cases u with
    | nil => exact ⟨by simpa using hu, by simpa using hs.symm⟩
    | cons b u =>
        obtain ⟨rfl, -⟩ := List.cons.inj hs
        exact absurd (by simp [hu]) hx

/-- Read from the right, it is enough that what stands behind the symbol does not
contain it. -/
theorem append_cons_cancel_right {a : α} {x y r s : List α} (hr : a ∉ r) (hs : a ∉ s)
    (h : x ++ a :: r = y ++ a :: s) : x = y ∧ r = s := by
  have hrev : r.reverse ++ a :: x.reverse = s.reverse ++ a :: y.reverse := by
    simpa using congrArg List.reverse h
  obtain ⟨hrs, hxy⟩ := append_cons_cancel (by simpa using hr) (by simpa using hs) hrev
  exact ⟨List.reverse_injective hxy, List.reverse_injective hrs⟩

/-- A way of writing numbers that a separator never runs into. -/
structure LengthPrefix (α : Type*) where
  digits : ℕ → List α
  sep : α
  digits_injective : Function.Injective digits
  sep_notMem_digits : ∀ n, sep ∉ digits n

namespace LengthPrefix

variable (p : LengthPrefix α)

/-- The length, the separator, then the text itself. -/
def frame (x : List α) : List α := p.digits x.length ++ p.sep :: x

def frames (xs : List (List α)) : List α := xs.flatMap p.frame

@[simp] theorem frames_nil : p.frames [] = [] := rfl

@[simp] theorem frames_cons (x : List α) (xs : List (List α)) :
    p.frames (x :: xs) = p.frame x ++ p.frames xs := rfl

theorem frame_ne_nil (x : List α) : p.frame x ≠ [] := by simp [frame]

theorem frame_append_inj {x y r s : List α} (h : p.frame x ++ r = p.frame y ++ s) :
    x = y ∧ r = s := by
  have hcut : p.digits x.length = p.digits y.length ∧ x ++ r = y ++ s := by
    apply append_cons_cancel (p.sep_notMem_digits _) (p.sep_notMem_digits _)
    simpa [frame] using h
  exact List.append_inj hcut.2 (p.digits_injective hcut.1)

theorem frame_injective : Function.Injective p.frame := by
  intro x y h
  exact (p.frame_append_inj (r := []) (s := []) (by rw [h])).1

/-- A sequence of frames is read back frame by frame, whatever the framed
texts contain. -/
theorem frames_injective : Function.Injective p.frames := by
  intro xs
  induction xs with
  | nil =>
      intro ys h
      cases ys with
      | nil => rfl
      | cons y ys => simp [p.frame_ne_nil] at h
  | cons x xs ih =>
      intro ys h
      cases ys with
      | nil => simp [p.frame_ne_nil] at h
      | cons y ys =>
          obtain ⟨rfl, hrest⟩ := p.frame_append_inj h
          rw [ih hrest]

end LengthPrefix

end Framing
