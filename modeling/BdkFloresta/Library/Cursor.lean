import Mathlib.Data.List.Infix
import Mathlib.Order.Basic

/-!
A log with cursors. Its entries bring items, each item has a position, and some entries
carry a cursor, the position a reader goes on from after a restart. The log is safe if no
cursor passes a needed item that has not been brought by then. A reader may stop anywhere,
and what is written for it next starts at the last cursor it has read: all it ever reads is
then one safe log.
-/

universe u v

/-- What the entries of a log bring, and where their cursors are. -/
structure Cursor (ε : Type u) (ι : Type v) where
  position : ι → Nat
  cursor : ε → Option Nat
  Brings : ε → ι → Prop

namespace Cursor
variable {ε : Type u} {ι : Type v} (C : Cursor ε ι)

/-- The last cursor of the log, or the start. -/
def last (start : Nat) (log : List ε) : Nat :=
  log.foldl (fun h e => (C.cursor e).getD h) start

def Brought (log : List ε) (i : ι) : Prop := ∃ e ∈ log, C.Brings e i

/-- At every moment all that is needed up to the last cursor has been brought. -/
def Safe (Needed : ι → Prop) (start : Nat) (log : List ε) : Prop :=
  ∀ read, read <+: log → ∀ i, Needed i → start < C.position i →
    C.position i ≤ C.last start read → C.Brought read i

variable {C} {Needed : ι → Prop} {start : Nat} {log : List ε}

@[simp] theorem last_append (log' : List ε) :
    C.last start (log ++ log') = C.last (C.last start log) log' := by
  simp [last]

theorem last_cursor {e : ε} {h : Nat} (he : C.cursor e = some h) :
    C.last start (log ++ [e]) = h := by
  simp [last, he]

theorem last_other {e : ε} (he : C.cursor e = none) :
    C.last start (log ++ [e]) = C.last start log := by
  simp [last, he]

theorem Brought.mono {log' : List ε} (hsub : log ⊆ log') {i : ι} (h : C.Brought log i) :
    C.Brought log' i := by
  obtain ⟨e, he, hbrings⟩ := h
  exact ⟨e, hsub he, hbrings⟩

theorem safe_nil : C.Safe Needed start [] := by
  intro read hread i _ hstart hlast
  obtain rfl := List.prefix_nil.mp hread
  exact absurd hstart (Nat.not_lt.mpr hlast)

theorem Safe.brought (h : C.Safe Needed start log) {i : ι} (hi : Needed i)
    (hstart : start < C.position i) (hlast : C.position i ≤ C.last start log) :
    C.Brought log i :=
  h log List.prefix_rfl i hi hstart hlast

/-- A reader may stop anywhere. -/
theorem Safe.read (h : C.Safe Needed start log) {read : List ε} (hread : read <+: log) :
    C.Safe Needed start read :=
  fun before hbefore => h before (hbefore.trans hread)

theorem Safe.concat (h : C.Safe Needed start log) {e : ε}
    (hlast : ∀ i, Needed i → start < C.position i →
      C.position i ≤ C.last start (log ++ [e]) → C.Brought (log ++ [e]) i) :
    C.Safe Needed start (log ++ [e]) := by
  intro read hread
  rcases List.prefix_concat_iff.mp hread with rfl | hread
  · exact hlast
  · exact h read hread

/-- An entry without a cursor does no harm. -/
theorem Safe.other (h : C.Safe Needed start log) {e : ε} (he : C.cursor e = none) :
    C.Safe Needed start (log ++ [e]) :=
  h.concat fun _ hi hstart hpos =>
    (h.brought hi hstart (last_other he ▸ hpos)).mono (List.subset_append_left ..)

/-- A log that starts where the first one was left goes on safely. -/
theorem Safe.append (h : C.Safe Needed start log) {log' : List ε}
    (h' : C.Safe Needed (C.last start log) log') : C.Safe Needed start (log ++ log') := by
  intro read hread i hi hstart hlast
  rcases List.prefix_or_prefix_of_prefix hread (List.prefix_append log log') with hread | hpast
  · exact h read hread i hi hstart hlast
  obtain ⟨read', rfl⟩ := hpast
  have hread' : read' <+: log' := (List.prefix_append_right_inj log).mp hread
  rw [last_append] at hlast
  rcases Nat.lt_or_ge (C.last start log) (C.position i) with habove | hbelow
  · exact (h' read' hread' i hi habove hlast).mono (List.subset_append_right ..)
  · exact (h.brought hi hstart hbelow).mono (List.subset_append_left ..)

end Cursor
