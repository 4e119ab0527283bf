import SchemaGraph.Override.Apply

/-! What a table makes of an entry.  Of several corrections of one field the last one counts, so that each
field can be read off the table on its own: `OverrideTable.corrected`. -/
namespace SchemaGraph

section LastFor

variable {κ α β : Type} [DecidableEq κ]

def lastFor (k : κ) (l : List (κ × β)) : Option β := l.reverse.lookup k

theorem lastFor_cons (k : κ) (e : κ × β) (l : List (κ × β)) :
    lastFor k (e :: l) = (lastFor k l).or (if e.1 = k then some e.2 else none) := by
  obtain ⟨j, v⟩ := e
  have single : [(j, v)].lookup k = if j = k then some v else none := by
    by_cases h : j = k
    · simp [h]
    · have h' : (k == j) = false := by simp [Ne.symm h]
      simp [List.lookup_cons, h, h']
  rw [lastFor, List.reverse_cons, List.lookup_append, single, lastFor]

theorem lastFor_eq_lookup {l : List (κ × β)} (h : (l.map (·.1)).Nodup) (k : κ) :
    lastFor k l = l.lookup k := by
  induction l with
  | nil => rfl
  | cons e r ih =>
    obtain ⟨new, rest⟩ := List.nodup_cons.1 h
    rw [lastFor_cons, ih rest, List.lookup_cons]
    by_cases he : e.1 = k
    · have gone : r.lookup k = none := by
        rw [List.lookup_eq_none_iff]
        intro p hp
        rw [bne_iff_ne]
        rintro rfl
        exact new (List.mem_map.2 ⟨p, hp, he.symm⟩)
      simp [he, gone]
    · have he' : (k == e.1) = false := by simp [Ne.symm he]
      simp [he, he']

theorem OrderedMap.lastFor_entries (m : OrderedMap κ β) (k : κ) : lastFor k m.entries = m.get? k :=
  lastFor_eq_lookup m.nodup k

theorem foldl_set (key : α → κ) (set : β → α → α) (keeps : ∀ v a, key (set v a) = key a)
    (replaces : ∀ v w a, set v (set w a) = set v a) (l : List (κ × β)) (a : α) :
    l.foldl (fun a e => if e.1 = key a then set e.2 a else a) a =
      (lastFor (key a) l).elim a (set · a) := by
  induction l generalizing a with
  | nil => rfl
  | cons e r ih =>
    rw [List.foldl_cons, ih, lastFor_cons]
    by_cases h : e.1 = key a
    · rw [if_pos h, if_pos h, keeps]
      cases lastFor (key a) r with
      | none => rfl
      | some v => exact replaces v e.2 a
    · rw [if_neg h, if_neg h, Option.or_none]

end LastFor

namespace KindCorrection

def kind : KindCorrection → SimpleKind
  | .boolean => .boolean
  | .decimal => .decimal
  | .string => .string
  | .enum => .enum
  | .list _ => .listOfEnum

def item? : KindCorrection → Option String
  | .list item => some item
  | .boolean | .decimal | .string | .enum => none

end KindCorrection

/-- What a correction makes of an entry; `place` tells where the type with a key is. -/
def Correction.onEntry (place : String → Option TypeId) (t : TypeEntry) : Correction → TypeEntry
  | .typeName key name => if key = t.key then { t with serializedName := some name } else t
  | .listName key name => if key = t.key then { t with listName := some name } else t
  | .extraProperties key extra => if key = t.key then { t with extraProperties := extra } else t
  | .textAttribute key name => if key = t.key then { t with textAttribute := some name } else t
  | .kind key k =>
    if key = t.key then { t with simpleKind := some k.kind, listItem := k.item?.bind place } else t
  | .elementName key element name =>
    if key = t.key then
      { t with elements := t.elements.modify element fun e => { e with serializedName := some name } }
    else t
  | .elementHint key element hint =>
    if key = t.key then
      { t with elements := t.elements.modify element fun e => { e with formatHint := some hint } }
    else t
  | .elementDefault key element value =>
    if key = t.key then
      { t with elements := t.elements.modify element fun e => { e with defaultValue := some value } }
    else t
  | .target _ | .operationAlias _ _ => t

namespace OverrideTable

/-- The serialized names of elements, by the key of the type and the key of the element. -/
def elementNamings (table : OverrideTable) : List ((String × String) × String) :=
  table.elementNames.flatMap fun c => c.elements.map fun element => ((c.typeKey, element), c.name)

def byElement {α : Type} (l : List (ElementCorrection α)) : List ((String × String) × α) :=
  l.map fun c => ((c.typeKey, c.element), c.value)

/-- What a table makes of an entry, field by field. -/
def corrected (table : OverrideTable) (place : String → Option TypeId) (t : TypeEntry) : TypeEntry :=
  { t with
    serializedName := (table.typeNames.get? t.key).or t.serializedName
    listName := (table.listNames.get? t.key).or t.listName
    extraProperties := (table.extraProperties.get? t.key).getD t.extraProperties
    textAttribute := (table.textAttributes.get? t.key).or t.textAttribute
    simpleKind := ((table.simpleKinds.get? t.key).map (·.kind)).or t.simpleKind
    listItem := (table.simpleKinds.get? t.key).elim t.listItem fun k => k.item?.bind place
    elements := t.elements.mapValues fun element d =>
      { d with
        serializedName := (lastFor (t.key, element) table.elementNamings).or d.serializedName
        formatHint := (lastFor (t.key, element) (byElement table.elementHints)).or d.formatHint
        defaultValue :=
          (lastFor (t.key, element) (byElement table.elementDefaults)).or d.defaultValue } }

theorem key_corrected (table : OverrideTable) (place : String → Option TypeId) (t : TypeEntry) :
    (table.corrected place t).key = t.key := rfl

theorem keys_corrected (table : OverrideTable) (place : String → Option TypeId) (t : TypeEntry) :
    (table.corrected place t).elements.keys = t.elements.keys := OrderedMap.keys_mapValues _ _

theorem corrected_corrected (table : OverrideTable) (place : String → Option TypeId) (t : TypeEntry) :
    table.corrected place (table.corrected place t) = table.corrected place t := by
  have again : ∀ {α : Type} (o o' : Option α), o.or (o.or o') = o.or o' := by
    intro α o o'
    cases o <;> rfl
  have extra : ∀ {α : Type} (o : Option α) (a : α), o.getD (o.getD a) = o.getD a := by
    intro α o a
    cases o <;> rfl
  have item : ∀ {α β : Type} (o : Option α) (b : β) (f : α → β), o.elim (o.elim b f) f = o.elim b f := by
    intro α β o b f
    cases o <;> rfl
  rw [corrected, key_corrected]
  simp only [corrected, OrderedMap.mapValues_mapValues, again, extra, item]

section Folds

variable {β : Type} {place : String → Option TypeId}

theorem foldl_onEntry_map (C : String → β → Correction) (put : Option β → TypeEntry → TypeEntry)
    (m : OrderedMap String β) (t : TypeEntry)
    (act : ∀ key v t, (C key v).onEntry place t = if key = t.key then put (some v) t else t := by
      intros; rfl)
    (absent : ∀ t, put none t = t := by intros; rfl)
    (keeps : ∀ v t, (put (some v) t).key = t.key := by intros; rfl)
    (replaces : ∀ v w t, put (some v) (put (some w) t) = put (some v) t := by intros; rfl) :
    (m.entries.map fun (key, v) => C key v).foldl (Correction.onEntry place) t =
      put (m.get? t.key) t := by
  rw [List.foldl_map]
  simp only [act, foldl_set TypeEntry.key (fun v => put (some v)) keeps replaces,
    OrderedMap.lastFor_entries]
  cases m.get? t.key with
  | none => exact (absent t).symm
  | some v => rfl

theorem foldl_modify (set : β → ElementDescriptor → ElementDescriptor)
    (l : List ((String × String) × β)) (t : TypeEntry) :
    l.foldl (fun t e =>
        if e.1.1 = t.key then { t with elements := t.elements.modify e.1.2 (set e.2) } else t) t =
      { t with elements := t.elements.mapValues fun element d =>
          l.foldl (fun d e => if e.1 = (t.key, element) then set e.2 d else d) d } := by
  induction l generalizing t with
  | nil => simp only [List.foldl_nil, OrderedMap.mapValues_self]
  | cons e r ih =>
    obtain ⟨⟨key, element⟩, v⟩ := e
    rw [List.foldl_cons, ih]
    by_cases h : key = t.key
    · subst h
      have here : ∀ j d, (if j = element then set v d else d) =
          if (t.key, element) = (t.key, j) then set v d else d := by
        intro j d
        by_cases hj : j = element
        · rw [if_pos hj, if_pos (by rw [hj])]
        · rw [if_neg hj, if_neg fun heq => hj (congrArg Prod.snd heq).symm]
      simp only [if_true, OrderedMap.modify_eq_mapValues, here, OrderedMap.mapValues_mapValues,
        List.foldl_cons]
      rfl
    · simp only [h, if_false, List.foldl_cons, Prod.mk.injEq, false_and]

theorem foldl_onEntry_elements (C : String → String → β → Correction)
    (put : Option β → ElementDescriptor → ElementDescriptor) (l : List ((String × String) × β))
    (t : TypeEntry)
    (act : ∀ key element v t, (C key element v).onEntry place t =
      if key = t.key then { t with elements := t.elements.modify element (put (some v)) } else t := by
        intros; rfl)
    (absent : ∀ d, put none d = d := by intros; rfl)
    (replaces : ∀ v w d, put (some v) (put (some w) d) = put (some v) d := by intros; rfl) :
    (l.map fun e => C e.1.1 e.1.2 e.2).foldl (Correction.onEntry place) t =
      { t with elements := t.elements.mapValues fun element d => put (lastFor (t.key, element) l) d } := by
  have last : ∀ element d,
      l.foldl (fun d e => if e.1 = (t.key, element) then put (some e.2) d else d) d =
        put (lastFor (t.key, element) l) d := by
    intro element d
    rw [foldl_set (fun _ => (t.key, element)) (fun v => put (some v)) (fun _ _ => rfl) replaces]
    cases lastFor (t.key, element) l with
    | none => exact (absent d).symm
    | some v => rfl
  rw [List.foldl_map]
  simp only [act, foldl_modify fun v => put (some v), last]

end Folds

def entryCorrections (table : OverrideTable) : List Correction :=
  table.typeNames.entries.map (fun (key, name) => Correction.typeName key name) ++
    table.listNames.entries.map (fun (key, name) => Correction.listName key name) ++
    table.extraProperties.entries.map (fun (key, extra) => Correction.extraProperties key extra) ++
    table.textAttributes.entries.map (fun (key, name) => Correction.textAttribute key name) ++
    table.simpleKinds.entries.map (fun (key, kind) => Correction.kind key kind) ++
    table.elementNames.flatMap (fun c =>
      Correction.target c.typeKey ::
        c.elements.map fun element => Correction.elementName c.typeKey element c.name) ++
    (byElement table.elementHints).map (fun e => Correction.elementHint e.1.1 e.1.2 e.2) ++
    (byElement table.elementDefaults).map (fun e => Correction.elementDefault e.1.1 e.1.2 e.2)

theorem corrections_eq (table : OverrideTable) :
    table.corrections = table.entryCorrections ++
      table.operationAliases.entries.map fun (added, target) => Correction.operationAlias added target := by
  unfold corrections entryCorrections byElement
  rw [List.map_map, List.map_map]
  rfl

theorem foldl_elementNames (place : String → Option TypeId) (l : List ElementNaming) (t : TypeEntry) :
    (l.flatMap fun c => Correction.target c.typeKey ::
        c.elements.map fun element => Correction.elementName c.typeKey element c.name).foldl
      (Correction.onEntry place) t =
    ((l.flatMap fun c => c.elements.map fun element => ((c.typeKey, element), c.name)).map
        fun e => Correction.elementName e.1.1 e.1.2 e.2).foldl (Correction.onEntry place) t := by
  induction l generalizing t with
  | nil => rfl
  | cons c rest ih =>
    simp only [List.flatMap_cons, List.map_append, List.map_map, List.foldl_append, List.foldl_cons]
    exact ih _

theorem foldl_entryCorrections (table : OverrideTable) (place : String → Option TypeId) (t : TypeEntry) :
    table.entryCorrections.foldl (Correction.onEntry place) t = table.corrected place t := by
  unfold entryCorrections
  -- Each part of the list writes one field, and the three for elements one field of each element.
  simp only [List.foldl_append, foldl_elementNames]
  rw [foldl_onEntry_map .typeName fun o t => { t with serializedName := o.or t.serializedName },
    foldl_onEntry_map .listName fun o t => { t with listName := o.or t.listName },
    foldl_onEntry_map .extraProperties fun o t => { t with extraProperties := o.getD t.extraProperties },
    foldl_onEntry_map .textAttribute fun o t => { t with textAttribute := o.or t.textAttribute },
    foldl_onEntry_map .kind fun o t =>
      { t with
        simpleKind := (o.map (·.kind)).or t.simpleKind
        listItem := o.elim t.listItem fun k => k.item?.bind place },
    foldl_onEntry_elements .elementName fun o d => { d with serializedName := o.or d.serializedName },
    foldl_onEntry_elements .elementHint fun o d => { d with formatHint := o.or d.formatHint },
    foldl_onEntry_elements .elementDefault fun o d => { d with defaultValue := o.or d.defaultValue }]
  simp only [OrderedMap.mapValues_mapValues]
  rfl

end OverrideTable

end SchemaGraph
