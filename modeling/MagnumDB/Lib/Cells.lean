import Mathlib.Algebra.GroupWithZero.Nat
import Mathlib.Order.Lattice
import Mathlib.Logic.Function.Basic

/-!
# Events on cells

A memory of independent cells, and events that each are about one cell: whether an
event can happen depends on what its cell holds, and it changes nothing else. Two
events conflict if they are about the same cell and are not both reads. Events that
do not conflict can be swapped, so an event can be moved to the front of others that
it does not conflict with (`front`).
-/

/-- Events of type `ε` on cells numbered by `ι` that hold an `α`. -/
structure Cells (ι α ε : Type) where
  cell : ε → ι
  /-- The event can happen when its cell holds this. -/
  ok : α → ε → Prop
  /-- What it leaves in its cell. -/
  act : α → ε → α
  read : ε → Prop
  act_read : ∀ {e a}, read e → act a e = a

namespace Cells

variable {ι α ε : Type} [DecidableEq ι] (C : Cells ι α ε)

/-- The memory after an event. -/
def apply (m : ι → α) (e : ε) : ι → α := Function.update m (C.cell e) (C.act (m (C.cell e)) e)

/-- The event can happen in this memory. -/
def Ok (m : ι → α) (e : ε) : Prop := C.ok (m (C.cell e)) e

/-- The memory after some events. -/
def run (m : ι → α) (es : List ε) : ι → α := es.foldl C.apply m

/-- The events can happen one after the other. -/
def OkRun : (ι → α) → List ε → Prop
  | _, [] => True
  | m, e :: es => C.Ok m e ∧ OkRun (C.apply m e) es

/-- The events are about the same cell, and one of them is not a read. -/
def Conflict (e f : ε) : Prop := C.cell e = C.cell f ∧ ¬ (C.read e ∧ C.read f)

variable {C} {m : ι → α} {e f : ε} {es fs : List ε}

theorem run_append : C.run m (es ++ fs) = C.run (C.run m es) fs := List.foldl_append

theorem run_concat : C.run m (es ++ [e]) = C.apply (C.run m es) e := run_append

theorem okRun_append : C.OkRun m (es ++ fs) ↔ C.OkRun m es ∧ C.OkRun (C.run m es) fs := by
  induction es generalizing m with
  | nil => exact ⟨fun h => ⟨trivial, h⟩, fun h => h.2⟩
  | cons e es ih =>
    rw [List.cons_append, OkRun, OkRun, ih, and_assoc]
    rfl

theorem okRun_concat : C.OkRun m (es ++ [e]) ↔ C.OkRun m es ∧ C.Ok (C.run m es) e := by
  rw [okRun_append]
  exact and_congr_right fun _ => and_iff_left trivial

theorem apply_other {i : ι} (h : i ≠ C.cell e) : C.apply m e i = m i := Function.update_of_ne h ..

theorem apply_self : C.apply m e (C.cell e) = C.act (m (C.cell e)) e := Function.update_self ..

theorem apply_read (h : C.read e) : C.apply m e = m := by
  unfold apply
  rw [C.act_read h, Function.update_eq_self]

omit [DecidableEq ι] in
theorem Conflict.symm (h : C.Conflict e f) : C.Conflict f e :=
  ⟨h.1.symm, fun hr => h.2 ⟨hr.2, hr.1⟩⟩

/-- An event finds its cell as it was before another one that it does not conflict with. -/
theorem apply_cell (h : ¬ C.Conflict e f) : C.apply m f (C.cell e) = m (C.cell e) := by
  by_cases hc : C.cell e = C.cell f
  · have hread : C.read e ∧ C.read f := by
      by_contra hr
      exact h ⟨hc, hr⟩
    rw [apply_read hread.2]
  · exact apply_other hc

theorem ok_apply (h : ¬ C.Conflict e f) : C.Ok (C.apply m f) e ↔ C.Ok m e := by
  unfold Ok
  rw [apply_cell h]

/-- Events that do not conflict can be swapped. -/
theorem apply_comm (h : ¬ C.Conflict e f) :
    C.apply (C.apply m f) e = C.apply (C.apply m e) f := by
  by_cases hc : C.cell e = C.cell f
  · have hread : C.read e ∧ C.read f := by
      by_contra hr
      exact h ⟨hc, hr⟩
    rw [apply_read hread.1, apply_read hread.1]
  · funext i
    by_cases hi : i = C.cell e
    · subst hi
      rw [apply_self, apply_other hc, apply_other hc, apply_self]
    · by_cases hj : i = C.cell f
      · subst hj
        rw [apply_other hi, apply_self, apply_self, apply_other hi]
      · rw [apply_other hi, apply_other hj, apply_other hj, apply_other hi]

/-- **An event is moved to the front** of events that it does not conflict with. -/
theorem front (hfs : C.OkRun m fs) (he : C.Ok (C.run m fs) e) (h : ∀ f ∈ fs, ¬ C.Conflict e f) :
    C.Ok m e ∧ C.OkRun (C.apply m e) fs ∧ C.run (C.apply m e) fs = C.apply (C.run m fs) e := by
  induction fs generalizing m with
  | nil => exact ⟨he, trivial, rfl⟩
  | cons f fs ih =>
    have hef := h f List.mem_cons_self
    obtain ⟨hf, hrest⟩ := hfs
    obtain ⟨he', hrest', hrun⟩ := ih hrest he fun g hg => h g (List.mem_cons_of_mem _ hg)
    rw [apply_comm hef] at hrest' hrun
    exact ⟨(ok_apply hef).mp he', ⟨(ok_apply fun hc => hef hc.symm).mpr hf, hrest'⟩, hrun⟩

end Cells
