import FlowPlan.Proofs.Json.Levels

/-!
# Spellings of a record

A record is spelled in many ways (`RecordSpelling`): its fields stand in any order and under any of their keys, some may be left out,
and among them stand fields that nobody asked for, with any JSON text. A layout whose slots take the fields as they may be spelled
decodes all of them to one record (`RecordSpelling.decodes`): `part met` is the record as far as the slots in `met` are filled, whatever
the order in which they were, and in the end `met` has all names but those that may be left out.
-/

namespace FlowPlan.Json

/-- A field of a record as it may be spelled: under which keys, with which texts, and whether it may be left out. -/
structure FieldForm where
  name : String
  otherNames : List String := []
  text : String → Prop
  optional : Prop := False

def FieldForm.keys (form : FieldForm) : List String :=
  form.name :: form.otherNames

/-- The names of fields are among the keys under which they are found. -/
theorem names_sublist_keys (forms : List FieldForm) : (forms.map (·.name)).Sublist (forms.flatMap FieldForm.keys) := by
  induction forms with
  | nil => exact .slnil
  | cons form rest ih =>
    rw [List.map_cons, List.flatMap_cons, FieldForm.keys, List.cons_append]
    exact (ih.trans (List.sublist_append_right ..)).cons_cons _

/-- Keys and texts of fields that are written as their forms have it, in the order of the forms. -/
inductive Written : List FieldForm → List (String × String) → Prop
  | nil : Written [] []
  | field {form forms key text fields} : key ∈ form.keys → form.text text → Written forms fields →
      Written (form :: forms) ((key, text) :: fields)
  | left {form forms fields} : form.optional → Written forms fields → Written (form :: forms) fields

/-- A text of a record with such fields: others whose keys are unknown stand among them, in any order. -/
def RecordSpelling (forms : List FieldForm) (text : String) : Prop :=
  ∃ written extra fields, Written forms written ∧ (∀ p ∈ extra, (∀ form ∈ forms, p.1 ∉ form.keys) ∧ Grammar.Value p.2) ∧
    List.Perm fields (written ++ extra) ∧ text = recordText (fields.map fieldText)

/-- A text of a list whose items are spelled one by one. -/
def ListSpelling {α : Type} (spelling : α → String → Prop) (items : List α) (text : String) : Prop :=
  ∃ texts, List.Forall₂ spelling items texts ∧ text = listText texts

/-! ## Documents of JSON texts -/

/-- The document of a text. -/
def Doc.ofText (s : String) : Doc :=
  (Doc.read s).doc

namespace Grammar

theorem Value.reads_ofText {s : String} (h : Value s) : Doc.Reads s (.ofText s) := by
  obtain ⟨doc, hdoc⟩ := h.reads
  rwa [Doc.ofText, hdoc.read]

theorem Value.passes_bracketDepth {s : String} (h : Value s) : Passes s.toList (bracketDepth s) := by
  obtain ⟨n, hn⟩ := h.passes
  rwa [hn.bracketDepth]

theorem value_quotedText (s : String) : Value (quotedText s) :=
  .text (quoted_quotedText s)

theorem ofText_quotedText (s : String) : Doc.ofText (quotedText s) = .text (some s) :=
  congrArg Reading.doc (Doc.reads_quoted (toList_quotedText s) (Doc.readPieces_quoted s)).read

/-- A record with values of the grammar is one. -/
theorem value_recordText {fields : List (String × String)} (h : ∀ p ∈ fields, Value p.2) :
    Value (recordText (fields.map fieldText)) := by
  have hblank : Blank "" := nofun
  let split (p : String × String) : (String × String × String) × String := (("", quotedText p.1, ""), p.2)
  have hkeys : ∀ q ∈ fields.map split, Blank q.1.1 ∧ Quoted q.1.2.1 ∧ Blank q.1.2.2 :=
    List.forall_mem_map.2 fun p _ => ⟨hblank, quoted_quotedText p.1, hblank⟩
  have hrecord := Value.record hkeys (List.forall_mem_map.2 h)
  have htexts : (fields.map split).map (fun q => q.1.1 ++ q.1.2.1 ++ q.1.2.2 ++ ":" ++ q.2) = fields.map fieldText := by
    rw [List.map_map]
    refine List.map_congr_left fun p _ => ?_
    simp only [Function.comp, split, String.empty_append, String.append_empty, fieldText]
  rwa [htexts] at hrecord

/-- A list of texts is read item by item. -/
theorem ofText_listText {texts : List String} (h : ∀ t ∈ texts, Value t) :
    Doc.ofText (listText texts) = .list (texts.map Doc.ofText) true := by
  have htexts : ∀ q ∈ texts.map fun t => (t, Doc.ofText t), Doc.Reads q.1 q.2 :=
    List.forall_mem_map.2 fun t ht => (h t ht).reads_ofText
  have hread := Doc.reads_listText htexts
  rw [List.map_map, List.map_map, show ((·.1) ∘ fun t => (t, Doc.ofText t)) = id from rfl, List.map_id] at hread
  exact congrArg Reading.doc hread.read

/-- A list nests its texts once more. -/
theorem bracketDepth_listText {texts : List String} (h : ∀ t ∈ texts, Value t) :
    bracketDepth (listText texts) = most (texts.map bracketDepth) + 1 := by
  have htexts : ∀ q ∈ texts.map fun t => (t, bracketDepth t), Passes q.1.toList q.2 :=
    List.forall_mem_map.2 fun t ht => (h t ht).passes_bracketDepth
  have hpasses := passes_listText htexts
  rw [List.map_map, List.map_map, show ((·.1) ∘ fun t => (t, bracketDepth t)) = id from rfl, List.map_id] at hpasses
  exact hpasses.bracketDepth

/-- A record of texts is read field by field, in the order in which they stand. -/
theorem ofText_recordText {fields : List (String × String)} (h : ∀ p ∈ fields, Value p.2) :
    Doc.ofText (recordText (fields.map fieldText)) = .record (fields.map fun p => (some p.1, .ofText p.2)) true := by
  have hfields : ∀ q ∈ fields.map fun p => (fieldText p, some p.1, Doc.ofText p.2), Doc.ReadsField q.1 q.2 := by
    rw [List.forall_mem_map]
    exact fun p hp => Doc.readsField_fieldText p.1 (h p hp).reads_ofText
  have hread := Doc.reads_recordText hfields
  rw [List.map_map, List.map_map] at hread
  exact congrArg Reading.doc hread.read

/-- A record nests its texts once more. -/
theorem bracketDepth_recordText {fields : List (String × String)} (h : ∀ p ∈ fields, Value p.2) :
    bracketDepth (recordText (fields.map fieldText)) = most (fields.map fun p => bracketDepth p.2) + 1 := by
  have hfields : ∀ q ∈ fields.map fun p => (fieldText p, bracketDepth p.2), Passes q.1.toList q.2 := by
    rw [List.forall_mem_map]
    exact fun p hp => (quoted_quotedText p.1).passes.field (h p hp).passes_bracketDepth
  have hpasses := passes_recordText hfields
  rw [List.map_map, List.map_map] at hpasses
  exact hpasses.bracketDepth

end Grammar

/-! ## Lists -/

variable {α : Type}

namespace ListSpelling

variable {spelling : α → String → Prop} {items : List α} {text : String}

/-- A list that is printed, with its items as they are printed. -/
theorem of_compact {toJson : α → Json} (h : ∀ a, spelling a (toJson a).compact) (items : List α) :
    ListSpelling spelling items (Json.list (items.map toJson)).compact := by
  refine ⟨(items.map toJson).map compact, ?_, compact_list _⟩
  rw [List.forall₂_map_right_iff, List.forall₂_map_right_iff, List.forall₂_same]
  exact fun a _ => h a

theorem values {texts : List String} (h : List.Forall₂ spelling items texts)
    (hvalue : ∀ a ∈ items, ∀ t, spelling a t → Grammar.Value t) : ∀ t ∈ texts, Grammar.Value t := by
  induction h with
  | nil => nofun
  | cons ha _ ih =>
    obtain ⟨hfirst, hrest⟩ := List.forall_mem_cons.1 hvalue
    exact List.forall_mem_cons.2 ⟨hfirst _ ha, ih hrest⟩

/-- A spelling of a list is a value of the grammar, if the spellings of its items are. -/
theorem value (h : ListSpelling spelling items text) (hvalue : ∀ a ∈ items, ∀ t, spelling a t → Grammar.Value t) :
    Grammar.Value text := by
  obtain ⟨texts, hitems, rfl⟩ := h
  exact .list (values hitems hvalue)

/-- A list whose items are decoded however they are spelled. -/
theorem decodes (h : ListSpelling spelling items text) (hvalue : ∀ a ∈ items, ∀ t, spelling a t → Grammar.Value t)
    {item : Doc → Decoded α} {levels : Nat}
    (hitem : ∀ a ∈ items, ∀ t, spelling a t → bracketDepth t ≤ levels - 1 → item (.ofText t) = .ok a)
    (hdepth : bracketDepth text ≤ levels) : (Doc.ofText text).decodeList levels item = .ok items := by
  obtain ⟨texts, hitems, rfl⟩ := h
  have hvalues := values hitems hvalue
  rw [Grammar.bracketDepth_listText hvalues] at hdepth
  have hdepths : ∀ t ∈ texts, bracketDepth t ≤ levels - 1 := List.forall_mem_map.1 (most_le_iff.1 (by omega))
  have hdocs : (texts.map Doc.ofText).mapM item = .ok items := by
    clear hvalue hdepth hvalues
    induction hitems with
    | nil => rfl
    | cons ha _ ih =>
      obtain ⟨hfirst, hrest⟩ := List.forall_mem_cons.1 hitem
      obtain ⟨hle, hles⟩ := List.forall_mem_cons.1 hdepths
      rw [List.map_cons, List.mapM_cons, hfirst _ ha hle, ih hrest hles]
      rfl
  rw [Grammar.ofText_listText hvalues, Doc.decodeList, hdocs, if_neg (by omega)]
  rfl

end ListSpelling

/-! ## Records -/

/-- A slot takes a field however it is spelled: it fills the part of the record that has its name. -/
structure Serves (levels : Nat) (part : List String → α) (form : FieldForm) (slot : Slot α) : Prop where
  name : slot.name = form.name
  otherNames : slot.otherNames = form.otherNames
  required : slot.presence = .required → ¬ form.optional
  fill : ∀ text, form.text text → bracketDepth text ≤ levels → ∀ met,
    slot.fill (.ofText text) (part met) = .ok (part (slot.name :: met))

namespace Serves

variable {levels : Nat} {part : List String → α}

/-- A slot that sets what is read. -/
theorem of_read {β : Type} {form : FieldForm} {slot : Slot α} (read : Doc → Decoded β) (set : β → α → α) (b : β)
    (hname : slot.name = form.name) (hothers : slot.otherNames = form.otherNames)
    (hrequired : slot.presence = .required → ¬ form.optional) (hfill : ∀ doc a, slot.fill doc a = do return set (← read doc) a)
    (hread : ∀ text, form.text text → bracketDepth text ≤ levels → read (.ofText text) = .ok b)
    (hpart : ∀ met, set b (part met) = part (form.name :: met)) : Serves levels part form slot where
  name := hname
  otherNames := hothers
  required := hrequired
  fill := by
    intro text htext hdepth met
    rw [hfill, hread text htext hdepth, hname, ← hpart]
    rfl

/-- A slot answers to the keys of the field that it serves. -/
theorem answersTo {form : FieldForm} {slot : Slot α} (h : Serves levels part form slot) (key : String) :
    slot.answersTo key = true ↔ key ∈ form.keys := by
  rw [Slot.answersTo, h.name, h.otherNames, FieldForm.keys]
  simp

variable {forms : List FieldForm} {slots : List (Slot α)}

/-- A key finds the slot that takes its field. -/
theorem find?_eq_some (h : List.Forall₂ (Serves levels part) forms slots) (hkeys : (forms.flatMap FieldForm.keys).Nodup) :
    ∀ form ∈ forms, ∀ key ∈ form.keys, ∃ slot, slots.find? (·.answersTo key) = some slot ∧ Serves levels part form slot := by
  induction h with
  | nil => nofun
  | @cons form slot forms slots hserves _ ih =>
    rw [List.flatMap_cons] at hkeys
    obtain ⟨-, hothers, hdisjoint⟩ := List.nodup_append'.1 hkeys
    refine List.forall_mem_cons.2 ⟨fun key hkey => ?_, fun other hother key hkey => ?_⟩
    · exact ⟨slot, List.find?_cons_of_pos (p := fun s => Slot.answersTo s key) ((hserves.answersTo key).2 hkey), hserves⟩
    · have hnot : ¬ slot.answersTo key = true := fun hanswers =>
        hdisjoint ((hserves.answersTo key).1 hanswers) (List.mem_flatMap_of_mem hother hkey)
      obtain ⟨found, hfound⟩ := ih hothers other hother key hkey
      exact ⟨found, (List.find?_cons_of_neg (p := fun s => Slot.answersTo s key) hnot).trans hfound.1, hfound.2⟩

/-- Each slot serves a field. -/
theorem exists_form (h : List.Forall₂ (Serves levels part) forms slots) :
    ∀ slot ∈ slots, ∃ form ∈ forms, Serves levels part form slot := by
  induction h with
  | nil => nofun
  | cons hserves _ ih =>
    refine List.forall_mem_cons.2 ⟨⟨_, List.mem_cons_self .., hserves⟩, fun slot hslot => ?_⟩
    obtain ⟨form, hform, hslot⟩ := ih slot hslot
    exact ⟨form, List.mem_cons_of_mem _ hform, hslot⟩

/-- An unknown key finds none. -/
theorem find?_eq_none (h : List.Forall₂ (Serves levels part) forms slots) {key : String} (hkey : ∀ form ∈ forms, key ∉ form.keys) :
    slots.find? (·.answersTo key) = none := by
  refine List.find?_eq_none.2 fun slot hslot hanswers => ?_
  obtain ⟨form, hform, hserves⟩ := exists_form h slot hslot
  exact hkey form hform ((hserves.answersTo key).1 hanswers)

end Serves

/-- The names of the slots that the keys find. -/
def namesFound (slots : List (Slot α)) (keys : List String) : List String :=
  keys.filterMap fun key => (slots.find? (·.answersTo key)).map (·.name)

@[simp] theorem namesFound_cons (slots : List (Slot α)) (key : String) (keys : List String) : namesFound slots (key :: keys) =
    ((slots.find? (·.answersTo key)).map (·.name)).toList ++ namesFound slots keys := by
  rw [namesFound, List.filterMap_cons]
  cases slots.find? (·.answersTo key) <;> rfl

/-- Fields that each fill their part of the record, no two of them the same one. -/
theorem fillNamed_parts {slots : List (Slot α)} {part : List String → α} {fields : List (String × Doc)}
    (hfill : ∀ p ∈ fields, ∀ slot ∈ slots.find? (·.answersTo p.1), ∀ met, slot.fill p.2 (part met) = .ok (part (slot.name :: met)))
    (met : List String) (hnew : ((namesFound slots (fields.map (·.1))).reverse ++ met).Nodup) :
    Layout.fillNamed slots met (part met) (fields.map fun p => (some p.1, p.2)) =
      .ok (part ((namesFound slots (fields.map (·.1))).reverse ++ met), (namesFound slots (fields.map (·.1))).reverse ++ met) := by
  induction fields generalizing met with
  | nil => rfl
  | cons p rest ih =>
    obtain ⟨hp, hrest⟩ := List.forall_mem_cons.1 hfill
    rw [List.map_cons, namesFound_cons] at hnew
    rw [List.map_cons, List.map_cons, namesFound_cons, Layout.fillNamed]
    cases hfind : slots.find? (·.answersTo p.1) with
    | none =>
      rw [hfind] at hnew
      exact ih hrest met hnew
    | some slot =>
      simp only [hfind, Option.map_some, Option.toList_some, List.singleton_append, List.reverse_cons, List.append_assoc] at hnew ⊢
      have hmet : met.contains slot.name = false := by
        rw [List.contains_eq_mem, decide_eq_false_iff_not]
        exact (List.nodup_cons.1 (List.nodup_append'.1 hnew).2.1).1
      rw [hmet, if_neg Bool.false_ne_true, hp slot hfind]
      exact ih hrest (slot.name :: met) hnew

namespace Written

variable {forms : List FieldForm} {written : List (String × String)}

/-- What is written are fields of the forms. -/
theorem exists_form (h : Written forms written) : ∀ p ∈ written, ∃ form ∈ forms, p.1 ∈ form.keys ∧ form.text p.2 := by
  induction h with
  | nil => nofun
  | field hkey htext _ ih =>
    refine List.forall_mem_cons.2 ⟨⟨_, List.mem_cons_self .., hkey, htext⟩, fun p hp => ?_⟩
    obtain ⟨form, hform, hp⟩ := ih p hp
    exact ⟨form, List.mem_cons_of_mem _ hform, hp⟩
  | left _ _ ih =>
    intro p hp
    obtain ⟨form, hform, hp⟩ := ih p hp
    exact ⟨form, List.mem_cons_of_mem _ hform, hp⟩

/-- The slots of what is written: no slot twice, and all but those of fields that may be left out. -/
theorem namesFound {slots : List (Slot α)} {levels : Nat} {part : List String → α} (h : Written forms written)
    (hfind : ∀ form ∈ forms, ∀ key ∈ form.keys, ∃ slot, slots.find? (·.answersTo key) = some slot ∧
      Serves levels part form slot) : (Json.namesFound slots (written.map (·.1))).Sublist (forms.map (·.name)) ∧
      ∀ form ∈ forms, form.name ∈ Json.namesFound slots (written.map (·.1)) ∨ form.optional := by
  induction h with
  | nil => exact ⟨List.Sublist.slnil, nofun⟩
  | @field form forms key text fields hkey _ _ ih =>
    obtain ⟨hform, hforms⟩ := List.forall_mem_cons.1 hfind
    obtain ⟨slot, hslot, hserves⟩ := hform key hkey
    obtain ⟨hsublist, hall⟩ := ih hforms
    have hnames : Json.namesFound slots (((key, text) :: fields).map (·.1)) =
        form.name :: Json.namesFound slots (fields.map (·.1)) := by
      rw [List.map_cons, namesFound_cons, hslot, Option.map_some, hserves.name]
      rfl
    rw [hnames, List.map_cons]
    refine ⟨hsublist.cons_cons _, List.forall_mem_cons.2 ⟨.inl (List.mem_cons_self ..), fun other hother => ?_⟩⟩
    exact (hall other hother).imp_left (List.mem_cons_of_mem _)
  | left hoptional _ ih =>
    obtain ⟨-, hforms⟩ := List.forall_mem_cons.1 hfind
    obtain ⟨hsublist, hall⟩ := ih hforms
    exact ⟨hsublist.cons _, List.forall_mem_cons.2 ⟨.inr hoptional, hall⟩⟩

end Written

namespace RecordSpelling

variable {forms : List FieldForm} {text : String}

theorem values {written extra fields : List (String × String)} (hwritten : Written forms written)
    (hextra : ∀ p ∈ extra, (∀ form ∈ forms, p.1 ∉ form.keys) ∧ Grammar.Value p.2) (hperm : fields.Perm (written ++ extra))
    (hvalue : ∀ form ∈ forms, ∀ t, form.text t → Grammar.Value t) : ∀ p ∈ fields, Grammar.Value p.2 := by
  intro p hp
  rcases List.mem_append.1 (hperm.mem_iff.1 hp) with hp | hp
  · obtain ⟨form, hform, -, htext⟩ := hwritten.exists_form p hp
    exact hvalue form hform _ htext
  · exact (hextra p hp).2

/-- A record that is printed, with the fields in their order and no others. -/
theorem of_compact {fields : List (String × Json)} (h : Written forms (fields.map fun p => (p.1, p.2.compact))) :
    RecordSpelling forms (Json.record fields).compact := by
  refine ⟨_, [], _, h, nofun, by rw [List.append_nil], ?_⟩
  rw [compact_record, List.map_map]
  rfl

/-- A spelling of a record is a value of the grammar, if the texts of its fields are, those of unknown fields included. -/
theorem value (h : RecordSpelling forms text) (hvalue : ∀ form ∈ forms, ∀ t, form.text t → Grammar.Value t) :
    Grammar.Value text := by
  obtain ⟨written, extra, fields, hwritten, hextra, hperm, rfl⟩ := h
  exact Grammar.value_recordText (values hwritten hextra hperm hvalue)

variable {written extra fields : List (String × String)} {slots : List (Slot α)} {levels : Nat} {part : List String → α}

/-- Which slots are met depends on the fields that are written only, not on the others nor on the order. -/
theorem namesFound_perm (hserves : List.Forall₂ (Serves levels part) forms slots)
    (hextra : ∀ p ∈ extra, ∀ form ∈ forms, p.1 ∉ form.keys) (hperm : fields.Perm (written ++ extra)) :
    (namesFound slots (fields.map (·.1))).Perm (namesFound slots (written.map (·.1))) := by
  have hnone : namesFound slots (extra.map (·.1)) = [] := by
    refine List.filterMap_eq_nil_iff.2 (List.forall_mem_map.2 fun p hp => ?_)
    rw [Serves.find?_eq_none hserves (hextra p hp)]
    rfl
  have happend := (hperm.map (·.1)).filterMap fun key => (slots.find? (·.answersTo key)).map (·.name)
  rw [List.map_append, List.filterMap_append] at happend
  change (namesFound _ _).Perm (namesFound _ _ ++ namesFound _ _) at happend
  rwa [hnone, List.append_nil] at happend

/-- Each field fills the slot that it finds. -/
theorem fills (hserves : List.Forall₂ (Serves levels part) forms slots) (hkeys : (forms.flatMap FieldForm.keys).Nodup)
    (hwritten : Written forms written) (hextra : ∀ p ∈ extra, ∀ form ∈ forms, p.1 ∉ form.keys)
    (hperm : fields.Perm (written ++ extra)) (hdepths : ∀ p ∈ fields, bracketDepth p.2 ≤ levels) :
    ∀ p ∈ fields, ∀ slot ∈ slots.find? (·.answersTo p.1), ∀ met,
      slot.fill (.ofText p.2) (part met) = .ok (part (slot.name :: met)) := by
  intro p hp slot hslot met
  rcases List.mem_append.1 (hperm.mem_iff.1 hp) with hmem | hmem
  · obtain ⟨form, hform, hkey, htext⟩ := hwritten.exists_form p hmem
    obtain ⟨found, hfound, htakes⟩ := Serves.find?_eq_some hserves hkeys form hform p.1 hkey
    obtain rfl : found = slot := Option.some.inj (hfound.symm.trans hslot)
    exact htakes.fill _ htext (hdepths p hp) met
  · rw [Serves.find?_eq_none hserves (hextra p hmem)] at hslot
    cases hslot

/-- No field is missed when all are met but optional ones. -/
theorem firstMissing_eq_none {layout : Layout α} (hserves : List.Forall₂ (Serves levels part) forms layout.slots)
    {met : List String} (hmet : ∀ form ∈ forms, form.name ∈ met ∨ form.optional) : layout.firstMissing met = none := by
  refine List.find?_eq_none.2 fun slot hslot => ?_
  obtain ⟨form, hform, hslot⟩ := Serves.exists_form hserves slot hslot
  rw [Bool.and_eq_true, decide_eq_true_eq, Bool.not_eq_true', List.contains_eq_mem, decide_eq_false_iff_not, hslot.name]
  exact fun ⟨hrequired, hnot⟩ => (hmet form hform).elim hnot (hslot.required hrequired)

/-- However a record is spelled, it is decoded to the record that has all its parts. -/
theorem decodes {layout : Layout α} (part : List String → α) {a : α} (h : RecordSpelling forms text)
    (hserves : List.Forall₂ (Serves (levels - 1) part) forms layout.slots) (hkeys : (forms.flatMap FieldForm.keys).Nodup)
    (hvalue : ∀ form ∈ forms, ∀ t, form.text t → Grammar.Value t) (hblank : part [] = layout.blank)
    (hwhole : ∀ met, (∀ form ∈ forms, form.name ∈ met ∨ form.optional) → part met = a) (hdepth : bracketDepth text ≤ levels) :
    layout.decodeAt levels (.ofText text) = .ok a := by
  obtain ⟨written, extra, fields, hwritten, hextra, hperm, rfl⟩ := h
  have hvalues := values hwritten hextra hperm hvalue
  rw [Grammar.bracketDepth_recordText hvalues] at hdepth
  obtain ⟨levels, rfl⟩ : ∃ n, levels = n + 1 := ⟨levels - 1, by omega⟩
  rw [Nat.add_le_add_iff_right] at hdepth
  have hdepths : ∀ p ∈ fields, bracketDepth p.2 ≤ levels := List.forall_mem_map.1 (most_le_iff.1 hdepth)
  have hunknown : ∀ p ∈ extra, ∀ form ∈ forms, p.1 ∉ form.keys := fun p hp => (hextra p hp).1
  obtain ⟨hsublist, hall⟩ := hwritten.namesFound (Serves.find?_eq_some hserves hkeys)
  have hnames := namesFound_perm hserves hunknown hperm
  have hmet : ∀ form ∈ forms, form.name ∈ (namesFound layout.slots (fields.map (·.1))).reverse ∨ form.optional := fun form hform =>
    (hall form hform).imp_left fun hmem => List.mem_reverse.2 (hnames.mem_iff.2 hmem)
  have hdocs : ∀ p ∈ fields.map fun p => (p.1, Doc.ofText p.2), ∀ slot ∈ layout.slots.find? (·.answersTo p.1), ∀ met,
      slot.fill p.2 (part met) = .ok (part (slot.name :: met)) :=
    List.forall_mem_map.2 (fills hserves hkeys hwritten hunknown hperm hdepths)
  have hfilled := fillNamed_parts hdocs [] (by
    rw [List.append_nil, List.nodup_reverse, List.map_map]
    exact hnames.nodup_iff.2 (hkeys.sublist (hsublist.trans (names_sublist_keys forms))))
  simp only [List.map_map, Function.comp_def, List.append_nil] at hfilled
  rw [Grammar.ofText_recordText hvalues]
  change layout.decode (.record (fields.map fun p => (some p.1, .ofText p.2)) true) = _
  rw [Layout.decode, ← hblank, hfilled, hwhole _ hmet]
  simp only [bind, Except.bind, firstMissing_eq_none hserves hmet]
  rfl

end RecordSpelling

end FlowPlan.Json
