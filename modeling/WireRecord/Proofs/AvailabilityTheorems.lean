/-
WireRecord.Proofs.AvailabilityTheorems — every element that a view shows can be used.

A view hands out an index for each of its elements, and each operation on an
element asks anew whether the field can be accessed. For the elements of a
compiled struct it always can if words hold their places: they are well placed, so all
that is left is whether they end within the buffer. What was found behind the fixed part was
found because it does, whether or not the buffer holds the fixed part
(`View.Opening.expanded_stop`), and what is in the fixed part does if the buffer
holds that.

`View.Serves` is what an element that can be accessed grants, and `View.Lacks` is
what every operation says where there is no element.
-/
import WireRecord.Proofs.ArrangementTheorems

namespace WireRecord.View

variable {v : View} {i : Nat} {f : Field}

/-! ## What can be asked of an index -/

/-- Whether an element can be read and written, typed and as native bytes. -/
structure Serves (v : View) (i : Nat) (f : Field) : Prop where
  element_eq : v.element i = .ok f
  value : ∃ x, v.value i = .ok x ∧ x.type = f.type
  raw : ∃ bytes, v.raw i f.type.bytes = .ok bytes ∧ bytes.length = f.type.bytes
  setValue : ∀ x, ∃ w, v.setValue i x = .ok w
  setRaw : ∀ bytes, bytes.length = f.type.bytes → ∃ w, v.setRaw i bytes = .ok w

/-- Whether every operation on an index is refused because the view has too few
elements. -/
structure Lacks (v : View) (i : Nat) : Prop where
  element : v.element i = .error (.noIndex i v.count)
  value : v.value i = .error (.noIndex i v.count)
  raw : ∀ length, v.raw i length = .error (.noIndex i v.count)
  address : v.address i = .error (.noIndex i v.count)
  setValue : ∀ x, v.setValue i x = .error (.noIndex i v.count)
  setRaw : ∀ bytes, v.setRaw i bytes = .error (.noIndex i v.count)
  setBytes : ∀ bytes, v.setBytes i bytes = .error (.noIndex i v.count)

/-- An element whose field can be accessed can be used in every way. -/
theorem serves_of_accessible (hf : v.elements[i]? = some f)
    (h : f.Accessible v.rep v.buffer.length) : v.Serves i f := by
  refine ⟨element_eq_ok_iff.mpr hf, ⟨_, value_of_accessible hf h, f.type_valueIn v.rep v.buffer⟩,
    ⟨_, (raw_eq_readRaw hf _).trans (Field.readRaw_eq h), Bytes.length_ofWord _ _⟩, fun x => ?_,
    fun bytes hlength => ?_⟩
  · rw [setValue_eq_write hf, Field.write_eq h]
    exact ⟨_, rfl⟩
  · rw [setRaw_eq_writeRaw hf, Field.writeRaw_eq h hlength]
    exact ⟨_, rfl⟩

/-- An index beyond the last element is refused by every operation, for that and
nothing else. -/
theorem lacks_of_count_le (h : v.count ≤ i) : v.Lacks i := by
  have helement : v.element i = .error (.noIndex i v.count) := by
    rw [element, List.getElem?_eq_none h]
  refine ⟨helement, ?_, fun length => ?_, ?_, fun x => ?_, fun bytes => ?_, fun bytes => ?_⟩
  · rw [value, helement]; rfl
  · rw [raw, helement]; rfl
  · rw [address, helement]; rfl
  · rw [setValue, helement]; rfl
  · rw [setRaw, helement]; rfl
  · rw [setBytes, helement]; rfl

/-! ## Views of compiled structs -/

/-- What was found behind the fixed part can be used on any buffer. -/
theorem accessible_of_mem_expanded {l : Layout} {r : Representation} {b : Bytes} {packed : Prop}
    (hl : l.Sound packed) (hv : Opening l r b v) (hf : f ∈ v.expanded) :
    f.Accessible v.rep v.buffer.length := by
  have hwell := (hv.stretch hl).well f hf
  exact hwell.accessible (hv.expanded_stop f hf)

end WireRecord.View
