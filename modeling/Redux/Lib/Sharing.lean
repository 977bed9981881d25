import Mathlib.Data.List.Basic

/-!
# Lib.Sharing — items that refer to the blocks of a store

An item may refer to a block of the store, and any number of items to the same one.  A block that is
written in place changes for all of them: what each item has been promised of its block is kept by a
write exactly if the new contents suit everybody who refers to it (`Promised.set_iff`).
-/

namespace Redux.Lib

section Sharing

variable {ι β : Type*} {ref : ι → Option ℕ} {P : ι → β → Prop}

/-- Every item that refers to a block refers to one that exists and is what the item was promised. -/
def Promised (ref : ι → Option ℕ) (P : ι → β → Prop) (items : List ι) (store : List β) : Prop :=
  ∀ i ∈ items, ∀ r, ref i = some r → ∃ b, store[r]? = some b ∧ P i b

variable {items : List ι} {store : List β} {r : ℕ} {b : β}

theorem promised_nil : Promised ref P [] store := fun _ hi => absurd hi List.not_mem_nil

theorem promised_cons {i : ι} : Promised ref P (i :: items) store ↔
    (∀ r, ref i = some r → ∃ b, store[r]? = some b ∧ P i b) ∧ Promised ref P items store :=
  List.forall_mem_cons

/-- New blocks leave the old ones alone. -/
theorem Promised.append (h : Promised ref P items store) (bs : List β) : Promised ref P items (store ++ bs) := by
  intro i hi r hr
  obtain ⟨b, hb, hP⟩ := h i hi r hr
  exact ⟨b, by rw [List.getElem?_append_left (List.getElem?_eq_some_iff.1 hb).1, hb], hP⟩

/-- **A write keeps the promises exactly if everybody who refers to the block is content with it.** -/
theorem Promised.set_iff (h : Promised ref P items store) (hr : r < store.length) :
    Promised ref P items (store.set r b) ↔ ∀ i ∈ items, ref i = some r → P i b := by
  constructor
  · intro h' i hi href
    obtain ⟨b', hb', hP⟩ := h' i hi r href
    rw [List.getElem?_set_self hr, Option.some_inj] at hb'
    rwa [hb']
  · intro h' i hi r' href
    by_cases hne : r = r'
    · subst hne
      exact ⟨b, List.getElem?_set_self hr, h' i hi href⟩
    · rw [List.getElem?_set_ne hne]
      exact h i hi r' href

/-- A change of one block that everybody who refers to it is content with. -/
theorem Promised.modify {f : β → β} (h : Promised ref P items store)
    (hf : ∀ i ∈ items, ref i = some r → ∀ b, store[r]? = some b → P i b → P i (f b)) :
    Promised ref P items (store.modify r f) := by
  intro i hi r' href
  obtain ⟨b, hb, hP⟩ := h i hi r' href
  by_cases heq : r = r'
  · subst heq
    exact ⟨f b, by simp [hb], hf i hi href b hb hP⟩
  · exact ⟨b, by simp [hb, heq], hP⟩

/-- What holds of a block, if promised, is read off it. -/
theorem Promised.get {i : ι} (h : Promised ref P items store) (hi : i ∈ items) (href : ref i = some r)
    (hb : store[r]? = some b) : P i b := by
  obtain ⟨b', hb', hP⟩ := h i hi r href
  rw [hb, Option.some_inj] at hb'
  rwa [hb']

end Sharing

end Redux.Lib
