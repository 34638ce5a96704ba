import Mathlib.Data.List.Nodup
import Mathlib.Data.List.Basic

/-!
# Pending timers

What a user of `Timer` sees of it: the ids that are pending, each with its data.
`SetTimeout` adds an id that was never in use, `Clear` drops one, and
`CheckTimer` drops an id before it runs its callback.
-/
namespace SimpleSvr.L2

abbrev Pending (D : Type) := List (UInt32 × D)

namespace Pending

variable {D : Type} {t : Pending D} {id : UInt32} {e : UInt32 × D}

/-- No id is pending twice. -/
def Distinct (t : Pending D) : Prop := (t.map Prod.fst).Nodup

/-- `Clear`, and what `CheckTimer` does to an id that is due. -/
def clear (t : Pending D) (id : UInt32) : Pending D := t.filter fun e => e.1 ≠ id

theorem mem_clear : e ∈ t.clear id ↔ e ∈ t ∧ e.1 ≠ id := by
  simp [clear]

theorem Distinct.clear (h : t.Distinct) (id : UInt32) : (t.clear id).Distinct :=
  h.sublist (List.filter_sublist.map Prod.fst)

theorem Distinct.set (h : t.Distinct) (hid : ∀ e ∈ t, e.1 ≠ id) (d : D) : Distinct ((id, d) :: t) := by
  refine List.nodup_cons.mpr ⟨fun hm => ?_, h⟩
  obtain ⟨e, he, rfl⟩ := List.mem_map.mp hm
  exact hid e he rfl

/-- An id names one timer. -/
theorem Distinct.unique (h : t.Distinct) {d d' : D} (hd : (id, d) ∈ t) (hd' : (id, d') ∈ t) : d = d' :=
  congrArg Prod.snd (List.inj_on_of_nodup_map h hd hd' rfl)

end Pending
end SimpleSvr.L2
