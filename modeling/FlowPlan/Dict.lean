/-!
# Dictionaries

A `Dict` holds one value for each of its keys. Keys are texts in increasing order of their code points, which is also the order of
their UTF-8 bytes, and a dictionary carries the proof of that order. So it is given by the list of its entries in order
(`ofEntries_toList`), also when they are inserted one after the other (`ofList_toList`). Inserting keeps the order and replaces the
value of a key that is there.

The values are a function of the place of a key, so that a type of values may have dictionaries of such values in it.
-/

namespace FlowPlan

/-- Keys in increasing order, with a value for each. -/
structure Dict (α : Type) where
  keys : List String
  sorted : keys.Pairwise (· < ·)
  value : Fin keys.length → α

namespace Dict

variable {α β : Type}

/-! ## Entries -/

/-- Entries in increasing order of their keys, hence each key there once. -/
def InOrder (entries : List (String × α)) : Prop :=
  entries.Pairwise fun p q => p.1 < q.1

instance (entries : List (String × α)) : Decidable (InOrder entries) :=
  inferInstanceAs (Decidable (entries.Pairwise fun p q => p.1 < q.1))

/-- The entries of a dictionary in the order of their keys. -/
def toList (d : Dict α) : List (String × α) :=
  List.ofFn fun i => (d.keys.get i, d.value i)

/-- The dictionary with the given entries. -/
def ofEntries (entries : List (String × α)) (h : InOrder entries) : Dict α where
  keys := entries.map Prod.fst
  sorted := List.pairwise_map.2 h
  value := fun i => (entries.get (i.cast (List.length_map _))).2

instance : EmptyCollection (Dict α) :=
  ⟨ofEntries [] List.Pairwise.nil⟩

/-- The dictionary with one entry. -/
def single (key : String) (value : α) : Dict α :=
  ofEntries [(key, value)] (List.pairwise_singleton ..)

instance : Inhabited (Dict α) :=
  ⟨∅⟩

instance [Repr α] : Repr (Dict α) :=
  ⟨fun d precedence => reprPrec d.toList precedence⟩

/-- How many entries a dictionary has. -/
def size (d : Dict α) : Nat :=
  d.keys.length

/-- The dictionary with each value replaced. -/
def map (f : α → β) (d : Dict α) : Dict β where
  keys := d.keys
  sorted := d.sorted
  value := fun i => f (d.value i)

/-- The value of a key. -/
def get? (key : String) (d : Dict α) : Option α :=
  d.toList.lookup key

@[simp] theorem length_toList (d : Dict α) : d.toList.length = d.size :=
  List.length_ofFn

/-- The entries have the keys of the dictionary, in order. -/
@[simp] theorem keys_toList (d : Dict α) : d.toList.map Prod.fst = d.keys := by
  rw [toList, List.map_ofFn]
  exact List.ofFn_getElem

/-- The entries of a dictionary are in the order of its keys, each key once. -/
theorem inOrder_toList (d : Dict α) : InOrder d.toList :=
  List.pairwise_map.1 (d.keys_toList ▸ d.sorted)

/-- What is made of the entries in order is made of each key and its value. -/
theorem map_toList (f : String × α → β) (d : Dict α) :
    d.toList.map f = List.ofFn fun i => f (d.keys.get i, d.value i) := by
  rw [toList, List.map_ofFn]
  rfl

/-- A dictionary has as many entries as it is made of. -/
@[simp] theorem size_ofEntries (entries : List (String × α)) (h : InOrder entries) : (ofEntries entries h).size = entries.length :=
  List.length_map _

/-- A function on the values leaves the keys alone. -/
theorem toList_map (f : α → β) (d : Dict α) : (d.map f).toList = d.toList.map fun p => (p.1, f p.2) := by
  rw [map_toList]
  rfl

/-- Entries that are in order already are the entries of their dictionary. -/
@[simp] theorem toList_ofEntries (entries : List (String × α)) (h : InOrder entries) : (ofEntries entries h).toList = entries := by
  refine List.ext_getElem ?_ fun i hi _ => ?_
  · rw [length_toList, size, ofEntries, List.length_map]
  · simp [toList, ofEntries]

/-- Dictionaries with the same entries are the same. -/
@[ext] theorem ext {d e : Dict α} (h : d.toList = e.toList) : d = e := by
  obtain ⟨keys, sorted, value⟩ := d
  obtain ⟨keys', sorted', value'⟩ := e
  obtain rfl : keys = keys' := by simpa using congrArg (List.map Prod.fst) h
  congr 1
  refine funext fun i => ?_
  have hi := congrArg (·[i.1]?) h
  simpa [toList] using hi

@[simp] theorem toList_single (key : String) (value : α) : (single key value).toList = [(key, value)] :=
  rfl

/-- A dictionary is given by its entries. -/
@[simp] theorem ofEntries_toList (d : Dict α) : ofEntries d.toList d.inOrder_toList = d :=
  ext (toList_ofEntries _ _)

@[simp] theorem map_empty (f : α → β) : (∅ : Dict α).map f = ∅ :=
  ext rfl

/-! ## Insertion -/

/-- The entries with `key` set to `value`. -/
def insertEntry (key : String) (value : α) : List (String × α) → List (String × α)
  | [] => [(key, value)]
  | (k, v) :: rest =>
    if key < k then (key, value) :: (k, v) :: rest
    else if key = k then (key, value) :: rest
    else (k, v) :: insertEntry key value rest

/-- The keys after an insertion are those before it and the new one. -/
theorem eq_or_mem_of_mem_insertEntry {key : String} {value : α} {entries : List (String × α)} {p : String × α}
    (h : p ∈ insertEntry key value entries) : p = (key, value) ∨ p ∈ entries := by
  induction entries with
  | nil => exact .inl (List.mem_singleton.1 h)
  | cons q rest ih =>
    rw [insertEntry] at h
    split at h
    · exact List.mem_cons.1 h
    · split at h
      · exact (List.mem_cons.1 h).imp_right (List.mem_cons_of_mem q)
      · rcases List.mem_cons.1 h with rfl | h
        · exact .inr List.mem_cons_self
        · exact (ih h).imp_right (List.mem_cons_of_mem q)

/-- An insertion keeps the order of the keys. -/
theorem InOrder.insertEntry {entries : List (String × α)} (h : InOrder entries) (key : String) (value : α) :
    InOrder (insertEntry key value entries) := by
  induction entries with
  | nil => exact List.pairwise_singleton ..
  | cons q rest ih =>
    obtain ⟨hq, hrest⟩ := List.pairwise_cons.1 h
    rw [Dict.insertEntry]
    split
    · rename_i hlt
      refine List.pairwise_cons.2 ⟨List.forall_mem_cons.2 ⟨hlt, fun p hp => ?_⟩, h⟩
      exact String.lt_trans hlt (hq p hp)
    · rename_i hge
      split
      · rename_i heq
        exact List.pairwise_cons.2 ⟨fun p hp => heq ▸ hq p hp, hrest⟩
      · rename_i hne
        refine List.pairwise_cons.2 ⟨fun p hp => ?_, ih hrest⟩
        rcases eq_or_mem_of_mem_insertEntry hp with rfl | hp
        · exact Decidable.byContradiction fun hle => hne (String.le_antisymm (String.not_lt.1 hle) (String.not_lt.1 hge))
        · exact hq p hp

/-- The dictionary with `key` set to `value`. -/
def insert (key : String) (value : α) (d : Dict α) : Dict α :=
  ofEntries (insertEntry key value d.toList) (d.inOrder_toList.insertEntry key value)

/-- The entries in the order of their keys; of two values for one key the later one stays. -/
def entriesOf (pairs : List (String × α)) : List (String × α) :=
  pairs.foldl (fun entries p => insertEntry p.1 p.2 entries) []

/-- Whatever the pairs, insertion one by one keeps the order. -/
theorem inOrder_entriesOf (pairs : List (String × α)) : InOrder (entriesOf pairs) :=
  List.foldlRecOn pairs _ List.Pairwise.nil fun _ h p _ => h.insertEntry p.1 p.2

/-- The dictionary of a list of pairs; of two values for one key the later one stays. -/
def ofList (pairs : List (String × α)) : Dict α :=
  ofEntries (entriesOf pairs) (inOrder_entriesOf pairs)

/-- A key behind all others is inserted at the end. -/
theorem insertEntry_of_lt {key : String} {value : α} {entries : List (String × α)} (h : ∀ p ∈ entries, p.1 < key) :
    insertEntry key value entries = entries ++ [(key, value)] := by
  induction entries with
  | nil => rfl
  | cons p rest ih =>
    obtain ⟨hp, hrest⟩ := List.forall_mem_cons.1 h
    rw [insertEntry, if_neg (String.lt_asymm hp), if_neg (String.ne_of_lt hp).symm, ih hrest, List.cons_append]

/-- Entries that go on in order are inserted one behind the other. -/
theorem foldl_insertEntry {front pairs : List (String × α)} (h : InOrder (front ++ pairs)) :
    pairs.foldl (fun entries p => insertEntry p.1 p.2 entries) front = front ++ pairs := by
  induction pairs generalizing front with
  | nil => exact (List.append_nil front).symm
  | cons p rest ih =>
    obtain ⟨-, -, hfront⟩ := List.pairwise_append.1 h
    rw [List.foldl_cons, insertEntry_of_lt fun q hq => hfront q hq p List.mem_cons_self, ih, List.append_assoc]
    · rfl
    · rwa [List.append_assoc]

/-- A dictionary is the one of its entries. -/
@[simp] theorem ofList_toList (d : Dict α) : ofList d.toList = d :=
  ext (by rw [ofList, toList_ofEntries, entriesOf, foldl_insertEntry d.inOrder_toList, List.nil_append])

end Dict

end FlowPlan
