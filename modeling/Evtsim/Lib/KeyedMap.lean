import Mathlib.Data.List.AList

/-!
# Maps with the operations of an unordered map

A map is Mathlib's `AList`: an association list whose keys are pairwise distinct. `touch` is the
insertion that subscripting an unordered map makes when the key is absent, `swap` exchanges two
values, and `eraseAll` erases a list of keys collected during a traversal. Every operation has one
lemma that says what `lookup` reads afterwards; the order of the entries is never used.
-/

/-- Finite maps from `κ` to `ν`. -/
abbrev KeyedMap (κ ν : Type*) := AList fun _ : κ => ν

namespace KeyedMap

variable {κ ν : Type*} [DecidableEq κ]

/-- The insertion of `d` made by a subscript with an absent key. -/
def touch (k : κ) (d : ν) (m : KeyedMap κ ν) : KeyedMap κ ν :=
  if k ∈ m then m else m.insert k d

/-- Exchange the values of two keys that are both present. -/
def swap (a b : κ) (m : KeyedMap κ ν) : KeyedMap κ ν :=
  match m.lookup a, m.lookup b with
  | some x, some y => (m.insert a y).insert b x
  | _, _ => m

/-- Set what is held under a key, to nothing if need be. -/
def assign (k : κ) (x : Option ν) (m : KeyedMap κ ν) : KeyedMap κ ν :=
  match x with
  | none => m.erase k
  | some v => m.insert k v

/-- Erase a list of keys. -/
def eraseAll (ks : List κ) (m : KeyedMap κ ν) : KeyedMap κ ν :=
  ks.foldl (fun m k => m.erase k) m

/-- Every key after an `insert`. -/
theorem lookup_insert (k k' : κ) (v : ν) (m : KeyedMap κ ν) :
    (m.insert k' v).lookup k = if k = k' then some v else m.lookup k := by
  split
  · rename_i h
    rw [h, AList.lookup_insert]
  · rename_i h
    exact AList.lookup_insert_ne h

/-- Every key after an `erase`. -/
theorem lookup_erase (k k' : κ) (m : KeyedMap κ ν) :
    (m.erase k').lookup k = if k = k' then none else m.lookup k := by
  split
  · rename_i h
    rw [h, AList.lookup_erase]
  · rename_i h
    exact AList.lookup_erase_ne h

/-- Every key after an assignment. -/
theorem lookup_assign (k k' : κ) (x : Option ν) (m : KeyedMap κ ν) :
    (assign k' x m).lookup k = if k = k' then x else m.lookup k := by
  cases x with
  | none => exact lookup_erase k k' m
  | some v => exact lookup_insert k k' v m

/-- A key is in a map if something is held under it. -/
theorem mem_iff_lookup {k : κ} {m : KeyedMap κ ν} : k ∈ m ↔ ∃ v, m.lookup k = some v := by
  rw [← AList.lookup_isSome, Option.isSome_iff_exists]

theorem mem_of_lookup {k : κ} {v : ν} {m : KeyedMap κ ν} (h : m.lookup k = some v) : k ∈ m :=
  mem_iff_lookup.mpr ⟨v, h⟩

/-- What holds of all that can be looked up, entry by entry: this is how it is decided. -/
theorem forall_lookup_iff {P : κ → ν → Prop} {m : KeyedMap κ ν} :
    (∀ k v, m.lookup k = some v → P k v) ↔ ∀ e ∈ m.entries, P e.1 e.2 :=
  ⟨fun h e he => h e.1 e.2 (AList.mem_lookup_iff.mpr he),
    fun h k v hv => h ⟨k, v⟩ (AList.mem_lookup_iff.mp hv)⟩

theorem lookup_eq_none {k : κ} {m : KeyedMap κ ν} : m.lookup k = none ↔ k ∉ m :=
  AList.lookup_eq_none

/-- A subscript leaves a key alone that is there. -/
theorem touch_of_mem {k : κ} {m : KeyedMap κ ν} (d : ν) (h : k ∈ m) : touch k d m = m :=
  if_pos h

/-- A subscript inserts a key that is not there. -/
theorem touch_of_notMem {k : κ} {m : KeyedMap κ ν} (d : ν) (h : k ∉ m) :
    touch k d m = m.insert k d :=
  if_neg h

/-- After a subscript its key is there, and no other is new. -/
theorem mem_touch {k k' : κ} {d : ν} {m : KeyedMap κ ν} : k ∈ touch k' d m ↔ k = k' ∨ k ∈ m := by
  by_cases h : k' ∈ m
  · rw [touch_of_mem d h]
    exact ⟨Or.inr, fun hk => hk.elim (fun e => e ▸ h) id⟩
  · rw [touch_of_notMem d h, AList.mem_insert]

/-- A subscript changes nothing for other keys, nor for its own if that is there. -/
theorem lookup_touch {k k' : κ} (d : ν) (m : KeyedMap κ ν) (h : k ∈ m ∨ k ≠ k') :
    (touch k' d m).lookup k = m.lookup k := by
  by_cases hk : k' ∈ m
  · rw [touch_of_mem d hk]
  · have hne : k ≠ k' := h.elim (fun hm e => hk (e ▸ hm)) id
    rw [touch_of_notMem d hk, lookup_insert, if_neg hne]

@[simp] theorem eraseAll_nil (m : KeyedMap κ ν) : eraseAll [] m = m := rfl

@[simp] theorem eraseAll_cons (k : κ) (ks : List κ) (m : KeyedMap κ ν) :
    eraseAll (k :: ks) m = eraseAll ks (m.erase k) := rfl

/-- Every key after the erasure of a list of keys. -/
theorem lookup_eraseAll (k : κ) (ks : List κ) (m : KeyedMap κ ν) :
    (eraseAll ks m).lookup k = if k ∈ ks then none else m.lookup k := by
  induction ks generalizing m with
  | nil => simp
  | cons k' ks ih =>
    rw [eraseAll_cons, ih, lookup_erase]
    by_cases h : k = k' <;> by_cases h' : k ∈ ks <;> simp [h, h']

/-- What is left after the erasure of a list of keys. -/
theorem mem_eraseAll {k : κ} {ks : List κ} {m : KeyedMap κ ν} :
    k ∈ eraseAll ks m ↔ k ∉ ks ∧ k ∈ m := by
  rw [mem_iff_lookup, lookup_eraseAll, mem_iff_lookup]
  split <;> simp_all

omit [DecidableEq κ] in
/-- Another key on the list to erase. -/
theorem mem_append_of_ne {k k' : κ} {ks : List κ} (h : k' ≠ k) : k ∈ ks ++ [k'] ↔ k ∈ ks := by
  rw [List.mem_append, List.mem_singleton]
  exact or_iff_left fun heq => h heq.symm

/-! ## Moving an entry to another key

`swap` followed by the erasure of the first key moves the entry of `a` to `b`, drops what `b` held,
and loses the entry when the two keys are equal. -/

/-- Every key after `std::swap` of two entries that are there. -/
theorem lookup_swap {a b k : κ} {x y : ν} {m : KeyedMap κ ν} (ha : m.lookup a = some x)
    (hb : m.lookup b = some y) :
    (swap a b m).lookup k = if k = b then some x else if k = a then some y else m.lookup k := by
  simp only [swap, ha, hb]
  rw [lookup_insert, lookup_insert]

/-- `std::swap` leaves the other keys alone. -/
theorem lookup_swap_of_ne {a b k : κ} {m : KeyedMap κ ν} (ha : k ≠ a) (hb : k ≠ b) :
    (swap a b m).lookup k = m.lookup k := by
  unfold swap
  split
  · rw [AList.lookup_insert_ne hb, AList.lookup_insert_ne ha]
  · rfl

/-- What `swap` leaves under a key depends on that key and the two. -/
theorem lookup_swap_congr {a b k : κ} {m m' : KeyedMap κ ν} (ha : m.lookup a = m'.lookup a)
    (hb : m.lookup b = m'.lookup b) (hk : m.lookup k = m'.lookup k) :
    (swap a b m).lookup k = (swap a b m').lookup k := by
  unfold swap
  rw [ha, hb]
  split
  · rw [lookup_insert, lookup_insert, lookup_insert, lookup_insert, hk]
  · exact hk

/-- `swap` does not tell its keys apart. -/
theorem lookup_swap_comm (a b k : κ) (m : KeyedMap κ ν) :
    (swap a b m).lookup k = (swap b a m).lookup k := by
  unfold swap
  rcases ha : m.lookup a with _ | x
  · rcases hb : m.lookup b with _ | y <;> rfl
  rcases hb : m.lookup b with _ | y
  · rfl
  by_cases hka : k = a
  · by_cases hkb : k = b
    · have hxy : some x = some y := by rw [← ha, ← hb, ← hka, ← hkb]
      simp only [lookup_insert, if_pos hka, if_pos hkb, hxy]
    · simp only [lookup_insert, if_pos hka, if_neg hkb]
  · simp only [lookup_insert, if_neg hka]

/-- The entry of `a` is found under `b` afterwards, unless `b` is `a`. -/
theorem lookup_swap_erase {a b k : κ} {x : ν} {m : KeyedMap κ ν} (d : ν)
    (ha : m.lookup a = some x) :
    ((swap a b (touch b d m)).erase a).lookup k =
      if k = a then none else if k = b then some x else m.lookup k := by
  have hta : (touch b d m).lookup a = some x :=
    (lookup_touch d m (.inl (mem_of_lookup ha))).trans ha
  obtain ⟨y, hy⟩ : ∃ y, (touch b d m).lookup b = some y :=
    mem_iff_lookup.mp (mem_touch.mpr (.inl rfl))
  rw [lookup_erase, lookup_swap hta hy]
  by_cases hka : k = a
  · rw [if_pos hka, if_pos hka]
  · rw [if_neg hka, if_neg hka, if_neg hka]
    by_cases hkb : k = b
    · rw [if_pos hkb, if_pos hkb]
    · rw [if_neg hkb, if_neg hkb, lookup_touch d m (.inr hkb)]

end KeyedMap
