import Mathlib.Data.List.Pairwise
import Mathlib.Order.Lattice

/-! Finite maps kept as lists in strictly increasing key order, the way an
ordered tree map iterates. The order is a field of the map, so a walk over the
entries meets the keys from the lowest up without a side condition. -/

namespace Braid.Foundation

variable {κ β : Type*}

/-- Keys strictly increase along the entries. -/
def Ascending [LT κ] (entries : List (κ × β)) : Prop :=
  entries.Pairwise fun a b => a.1 < b.1

instance [LT κ] [DecidableLT κ] (entries : List (κ × β)) : Decidable (Ascending entries) :=
  inferInstanceAs (Decidable (List.Pairwise _ _))

/-- A map as its entries, lowest key first. -/
structure SortedMap (κ β : Type*) [LT κ] where
  entries : List (κ × β)
  ascending : Ascending entries
  deriving DecidableEq

namespace SortedMap

variable [LinearOrder κ]

def empty : SortedMap κ β := ⟨[], List.Pairwise.nil⟩

@[simp] theorem empty_entries : (empty : SortedMap κ β).entries = [] := rfl

variable (m : SortedMap κ β)

def size : ℕ := m.entries.length

def get? (k : κ) : Option β :=
  (m.entries.find? fun e => e.1 = k).map Prod.snd

def insertEntry (k : κ) (v : β) : List (κ × β) → List (κ × β)
  | [] => [(k, v)]
  | e :: es =>
    if k < e.1 then (k, v) :: e :: es
    else if k = e.1 then (k, v) :: es
    else e :: insertEntry k v es

theorem mem_insertEntry {k : κ} {v : β} {es : List (κ × β)} {x : κ × β} (h : x ∈ insertEntry k v es) :
    x = (k, v) ∨ x ∈ es := by
  induction es with
  | nil => simpa [insertEntry] using h
  | cons e es ih =>
    simp only [insertEntry] at h
    split_ifs at h
    · simpa using h
    · rcases List.mem_cons.mp h with rfl | h
      · exact .inl rfl
      · exact .inr (List.mem_cons_of_mem _ h)
    · rcases List.mem_cons.mp h with rfl | h
      · exact .inr List.mem_cons_self
      · exact (ih h).imp_right (List.mem_cons_of_mem _)

theorem ascending_insertEntry (k : κ) (v : β) {es : List (κ × β)} (h : Ascending es) :
    Ascending (insertEntry k v es) := by
  induction es with
  | nil => exact List.pairwise_singleton _ _
  | cons e es ih =>
    obtain ⟨he, hes⟩ := List.pairwise_cons.mp h
    simp only [insertEntry]
    split_ifs with hlt heq
    · refine List.pairwise_cons.mpr ⟨fun x hx => ?_, h⟩
      rcases List.mem_cons.mp hx with rfl | hx
      · exact hlt
      · exact hlt.trans (he x hx)
    · exact List.pairwise_cons.mpr ⟨fun x hx => heq ▸ he x hx, hes⟩
    · refine List.pairwise_cons.mpr ⟨fun x hx => ?_, ih hes⟩
      rcases mem_insertEntry hx with rfl | hx
      · exact lt_of_le_of_ne (not_lt.mp hlt) (Ne.symm heq)
      · exact he x hx

def insert (k : κ) (v : β) : SortedMap κ β :=
  ⟨insertEntry k v m.entries, ascending_insertEntry k v m.ascending⟩

theorem mem_insert {m : SortedMap κ β} {k : κ} {v : β} {x : κ × β} (h : x ∈ (m.insert k v).entries) :
    x = (k, v) ∨ x ∈ m.entries :=
  mem_insertEntry h

theorem mem_insertEntry_self (k : κ) (v : β) (es : List (κ × β)) : (k, v) ∈ insertEntry k v es := by
  induction es with
  | nil => simp [insertEntry]
  | cons e es ih =>
    simp only [insertEntry]
    split_ifs
    · exact List.mem_cons_self
    · exact List.mem_cons_self
    · exact List.mem_cons_of_mem _ ih

theorem mem_insertEntry_of_ne {k : κ} {v : β} {es : List (κ × β)} {x : κ × β} (h : x ∈ es) (hne : x.1 ≠ k) :
    x ∈ insertEntry k v es := by
  induction es with
  | nil => cases h
  | cons e es ih =>
    simp only [insertEntry]
    split_ifs with hlt heq
    · exact List.mem_cons_of_mem _ h
    · rcases List.mem_cons.mp h with rfl | h
      · exact absurd heq.symm hne
      · exact List.mem_cons_of_mem _ h
    · rcases List.mem_cons.mp h with rfl | h
      · exact List.mem_cons_self
      · exact List.mem_cons_of_mem _ (ih h)

theorem get?_of_mem {m : SortedMap κ β} {x : κ × β} (h : x ∈ m.entries) : m.get? x.1 = some x.2 := by
  obtain ⟨entries, hascending⟩ := m
  simp only [get?, Option.map_eq_some_iff]
  refine ⟨x, ?_, rfl⟩
  induction entries with
  | nil => cases h
  | cons e es ih =>
    obtain ⟨hfirst, hrest⟩ := List.pairwise_cons.mp hascending
    rcases List.mem_cons.mp h with rfl | h
    · simp
    · rw [List.find?_cons_of_neg (by simpa using (hfirst x h).ne)]
      exact ih hrest h

def dropLowest (n : ℕ) : SortedMap κ β :=
  ⟨m.entries.drop n, m.ascending.sublist (List.drop_sublist n _)⟩

@[simp] theorem dropLowest_entries (n : ℕ) :
    (m.dropLowest n).entries = m.entries.drop n := rfl

end SortedMap

end Braid.Foundation
