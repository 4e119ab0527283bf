import Mathlib.Data.List.Forall2
import SchemaGraph.Service
import SchemaGraph.Proofs.Outcome

/-! How the operations of a service description come about.  `Joined` says which descriptor belongs to an operation of
the binding, in terms of the elements of the document and without the maps that the reading goes through; a
description is read exactly if every operation of its binding has a descriptor. -/
namespace SchemaGraph

open Markup (Element)

def Operation.body (op : Operation) : Direction → QName
  | .input => op.input
  | .output => op.output

def Operation.headers (op : Operation) : Direction → List QName
  | .input => op.inputHeaders
  | .output => op.outputHeaders

namespace Service

def lastNamed? (l : List Element) (name : String) : Option Element :=
  (l.filter fun e => e.attr? "name" == some name).getLast?

def message? (root : Element) (name : String) : Option Element :=
  lastNamed? (root.childrenNamed "message") name

def portNodes (root : Element) : List Element :=
  (root.childrenNamed "portType").flatMap (·.childrenNamed "operation")

def port? (root : Element) (name : String) : Option Element := lastNamed? (portNodes root) name

/-- `element` is the element of the part with the name, of the last one if there are several. -/
def HasPart (message : Element) (name : String) (element : QName) : Prop :=
  ∃ part, lastNamed? (message.childrenNamed "part") name = some part ∧ part.qname "element" = .ok element

def Sends (port : Element) (d : Direction) (name : String) : Prop :=
  ∃ node q, port.child? d.name = some node ∧ node.qname "message" = .ok q ∧ q.localName = name

/-- The name of the part that the body of a direction is made of.  There is one body, a literal one, and it names the
part, or all parts of the message have one name. -/
inductive BodyPart (node message : Element) : String → Prop
  | named {body : Element} {parts : String} (one : node.childrenNamed "body" = [body])
      (literal : body.attr? "use" = some "literal") (told : body.attr? "parts" = some parts) :
      BodyPart node message (Text.trim parts)
  | only {body : Element} {name : String} (one : node.childrenNamed "body" = [body])
      (literal : body.attr? "use" = some "literal") (untold : body.attr? "parts" = none)
      (nonempty : message.childrenNamed "part" ≠ [])
      (same : ∀ part ∈ message.childrenNamed "part", part.attr? "name" = some name) :
      BodyPart node message name

/-- The element of a header, from the message that it names or else from the message `own` of its direction. -/
inductive HeaderElement (root own header : Element) : QName → Prop
  | foreign {name element : QName} {message : Element} {part : String}
      (told : header.qname? "message" = .ok (some name)) (found : message? root name.localName = some message)
      (named : header.attr? "part" = some part) (has : HasPart message part element) :
      HeaderElement root own header element
  | own {element : QName} {part : String} (untold : header.attr? "message" = none)
      (named : header.attr? "part" = some part) (has : HasPart own part element) :
      HeaderElement root own header element

/-- What an operation `e` of the binding says in one direction, with the message that the port operation `port` has
there. -/
def Joins (root port e : Element) (d : Direction) (body : QName) (headers : List QName) : Prop :=
  ∃ name message node, Sends port d name ∧ message? root name = some message ∧ e.child? d.name = some node ∧
    (∃ part, BodyPart node message part ∧ HasPart message part body) ∧
    List.Forall₂ (HeaderElement root message) (node.childrenNamed "header") headers

/-- The descriptor of an operation `e` of the binding. -/
structure Joined (root e : Element) (op : Operation) : Prop where
  action : e.attr? "name" = some op.action
  joins : ∃ port, port? root op.action = some port ∧ ∀ d, Joins root port e d (op.body d) (op.headers d)

/-- The messages and the port types say all that they have to say. -/
structure Legible (root : Element) : Prop where
  definitions : root.localName = "definitions"
  messages : ∀ m ∈ root.childrenNamed "message", (∃ name, m.attr? "name" = some name) ∧
    ∀ part ∈ m.childrenNamed "part", (∃ name, part.attr? "name" = some name) ∧ ∃ q, part.qname "element" = .ok q
  ports : ∀ port ∈ portNodes root, (∃ name, port.attr? "name" = some name) ∧ ∀ d, ∃ name, Sends port d name

section Entries

variable {α : Type} {holds : Element → α → Prop} {l : List Element} {ps : List (String × α)} {name : String} {a : α}

theorem attr_eq_ok_iff {e : Element} {key value : String} : e.attr key = .ok value ↔ e.attr? key = some value := by
  unfold Element.attr
  cases e.attr? key <;> simp

theorem lastNamed?_cons (e : Element) (l : List Element) (name : String) :
    lastNamed? (e :: l) name = (lastNamed? l name).or (if e.attr? "name" = some name then some e else none) := by
  unfold lastNamed?
  rw [List.filter_cons]
  by_cases here : e.attr? "name" = some name
  · rw [if_pos (beq_iff_eq.2 here), if_pos here, List.getLast?_cons]
    cases (l.filter fun e => e.attr? "name" == some name).getLast? <;> rfl
  · rw [if_neg (mt beq_iff_eq.1 here), if_neg here, Option.or_none]

theorem of_lastNamed? {e : Element} (h : lastNamed? l name = some e) : e ∈ l ∧ e.attr? "name" = some name := by
  have here := List.mem_filter.1 (List.mem_of_getLast? h)
  exact ⟨here.1, beq_iff_eq.1 here.2⟩

abbrev Entries (holds : Element → α → Prop) (l : List Element) (ps : List (String × α)) : Prop :=
  List.Forall₂ (fun e p => e.attr? "name" = some p.1 ∧ holds e p.2) l ps

theorem exists_entries (h : ∀ e ∈ l, (∃ name, e.attr? "name" = some name) ∧ ∃ a, holds e a) :
    ∃ ps, Entries holds l ps := by
  induction l with
  | nil => exact ⟨[], .nil⟩
  | cons e l ih =>
    obtain ⟨⟨⟨name, named⟩, a, ha⟩, rest⟩ := List.forall_mem_cons.1 h
    obtain ⟨ps, entries⟩ := ih rest
    exact ⟨(name, a) :: ps, .cons ⟨named, ha⟩ entries⟩

theorem Entries.of_mem {e : Element} (h : Entries holds l ps) (he : e ∈ l) :
    ∃ p ∈ ps, e.attr? "name" = some p.1 ∧ holds e p.2 := by
  induction h with
  | nil => cases he
  | cons entry _ ih =>
    rcases List.mem_cons.1 he with rfl | he
    · exact ⟨_, List.mem_cons_self, entry⟩
    · obtain ⟨p, hp, entry⟩ := ih he
      exact ⟨p, List.mem_cons_of_mem _ hp, entry⟩

theorem foldlM_eq_ok_iff {collect : OrderedMap String α → Element → Except DocumentError (OrderedMap String α)}
    (step : ∀ m e m', collect m e = .ok m' ↔
      ∃ name a, e.attr? "name" = some name ∧ holds e a ∧ m.insert name a = m') {m m' : OrderedMap String α} :
    l.foldlM collect m = .ok m' ↔
      ∃ ps, Entries holds l ps ∧ ps.foldl (fun m p => m.insert p.1 p.2) m = m' := by
  induction l generalizing m with
  | nil =>
    simp only [Entries, List.forall₂_nil_left_iff, exists_eq_left]
    exact ⟨Except.ok.inj, congrArg _⟩
  | cons e l ih =>
    rw [List.foldlM_cons, bind_eq_ok_iff]
    constructor
    · rintro ⟨mid, first, rest⟩
      obtain ⟨name, a, named, ha, rfl⟩ := (step _ _ _).1 first
      obtain ⟨ps, entries, rfl⟩ := ih.1 rest
      exact ⟨(name, a) :: ps, .cons ⟨named, ha⟩ entries, rfl⟩
    · rintro ⟨ps, entries, rfl⟩
      cases entries with
      | cons entry entries => exact ⟨_, (step _ _ _).2 ⟨_, _, entry.1, entry.2, rfl⟩, ih.2 ⟨_, entries, rfl⟩⟩

theorem get?_foldl_insert_iff (unique : ∀ e a b, holds e a → holds e b → a = b) (h : Entries holds l ps)
    (m : OrderedMap String α) :
    (ps.foldl (fun m p => m.insert p.1 p.2) m).get? name = some a ↔
      (∃ e, lastNamed? l name = some e ∧ holds e a) ∨ (lastNamed? l name = none ∧ m.get? name = some a) := by
  induction h generalizing m with
  | nil => simp [lastNamed?]
  | @cons e p l ps entry _ ih =>
    rw [List.foldl_cons, ih, lastNamed?_cons]
    cases lastNamed? l name with
    | some e' => simp
    | none =>
      rw [OrderedMap.get?_insert, Option.none_or, entry.1]
      by_cases same : name = p.1
      · subst same
        have own : p.2 = a ↔ holds e a := ⟨fun h => h ▸ entry.2, unique e p.2 a entry.2⟩
        simp [own]
      · simp [same, Ne.symm same]

theorem get?_ofList_iff (unique : ∀ e a b, holds e a → holds e b → a = b) (h : Entries holds l ps) :
    (OrderedMap.ofList ps).get? name = some a ↔ ∃ e, lastNamed? l name = some e ∧ holds e a := by
  rw [OrderedMap.ofList, get?_foldl_insert_iff unique h, OrderedMap.get?_empty]
  simp

theorem eraseDups_eq_singleton_iff {κ : Type} [DecidableEq κ] {l : List κ} {k : κ} :
    l.eraseDups = [k] ↔ l ≠ [] ∧ ∀ j ∈ l, j = k := by
  constructor
  · intro h
    have mem (j : κ) : j ∈ l ↔ j = k := by rw [← List.mem_eraseDups, h, List.mem_singleton]
    exact ⟨List.ne_nil_of_mem ((mem k).2 rfl), fun j => (mem j).1⟩
  · rintro ⟨nonempty, same⟩
    cases l with
    | nil => exact absurd rfl nonempty
    | cons j l =>
      rw [List.forall_mem_cons] at same
      obtain ⟨rfl, same⟩ := same
      rw [List.eraseDups_cons, List.filter_eq_nil_iff.2 fun i hi => by simp [same i hi], List.eraseDups_nil]

theorem keys_ofList_iff (h : Entries holds l ps) :
    (OrderedMap.ofList ps).keys = [name] ↔ l ≠ [] ∧ ∀ e ∈ l, e.attr? "name" = some name := by
  rw [OrderedMap.keys_ofList, eraseDups_eq_singleton_iff]
  refine and_congr ?_ ?_
  · rw [Ne, List.map_eq_nil_iff, ← List.length_eq_zero_iff, ← h.length_eq, List.length_eq_zero_iff]
  · induction h with
    | nil => simp
    | cons entry _ ih =>
      rw [List.map_cons, List.forall_mem_cons, List.forall_mem_cons, ih, entry.1, Option.some.injEq]

end Entries

section Messages

variable {root message e : Element} {m : Message} {found : OrderedMap String Message} {name : String}

theorem readMessage_eq_ok_iff : readMessage e = .ok m ↔
    ∃ ps, Entries (fun part q => part.qname "element" = .ok q) (e.childrenNamed "part") ps ∧ .ofList ps = m := by
  refine foldlM_eq_ok_iff fun parts part parts' => ?_
  simp only [bind_eq_ok_iff, attr_eq_ok_iff]
  constructor
  · rintro ⟨q, hq, name, named, same⟩
    exact ⟨name, q, named, hq, Except.ok.inj same⟩
  · rintro ⟨name, q, named, hq, rfl⟩
    exact ⟨q, hq, name, named, rfl⟩

structure PartsOf (message : Element) (m : Message) : Prop where
  get?_iff : ∀ name q, m.get? name = some q ↔ HasPart message name q
  keys_iff : ∀ name, m.keys = [name] ↔
    message.childrenNamed "part" ≠ [] ∧ ∀ part ∈ message.childrenNamed "part", part.attr? "name" = some name

theorem partsOf_of_readMessage (h : readMessage message = .ok m) : PartsOf message m := by
  obtain ⟨ps, entries, rfl⟩ := readMessage_eq_ok_iff.1 h
  refine ⟨fun name q => get?_ofList_iff ?_ entries, fun name => keys_ofList_iff entries⟩
  exact fun _ _ _ ha hb => Except.ok.inj (ha.symm.trans hb)

/-- The map `found` has the messages of the document. -/
structure MessagesOf (root : Element) (found : OrderedMap String Message) : Prop where
  get?_iff : ∀ name m, found.get? name = some m ↔ ∃ e, message? root name = some e ∧ readMessage e = .ok m
  read : ∀ name e, message? root name = some e → ∃ m, readMessage e = .ok m

theorem messages_eq_ok_iff : messages root = .ok found ↔
    ∃ ps, Entries (fun e m => readMessage e = .ok m) (root.childrenNamed "message") ps ∧ .ofList ps = found := by
  refine foldlM_eq_ok_iff fun found e found' => ?_
  simp only [bind_eq_ok_iff, attr_eq_ok_iff]
  constructor
  · rintro ⟨m, hm, name, named, same⟩
    exact ⟨name, m, named, hm, Except.ok.inj same⟩
  · rintro ⟨name, m, named, hm, rfl⟩
    exact ⟨m, hm, name, named, rfl⟩

theorem messagesOf_of_messages (h : messages root = .ok found) : MessagesOf root found := by
  obtain ⟨ps, entries, rfl⟩ := messages_eq_ok_iff.1 h
  refine ⟨fun name m => get?_ofList_iff ?_ entries, fun name e he => ?_⟩
  · exact fun _ _ _ ha hb => Except.ok.inj (ha.symm.trans hb)
  · obtain ⟨p, -, -, read⟩ := entries.of_mem (of_lastNamed? he).1
    exact ⟨p.2, read⟩

theorem exists_messages_iff : (∃ found, messages root = .ok found) ↔
    ∀ m ∈ root.childrenNamed "message", (∃ name, m.attr? "name" = some name) ∧
      ∀ part ∈ m.childrenNamed "part", (∃ name, part.attr? "name" = some name) ∧ ∃ q, part.qname "element" = .ok q := by
  have read (e : Element) : (∃ m, readMessage e = .ok m) ↔ ∀ part ∈ e.childrenNamed "part",
      (∃ name, part.attr? "name" = some name) ∧ ∃ q, part.qname "element" = .ok q := by
    constructor
    · rintro ⟨m, hm⟩ part hpart
      obtain ⟨ps, entries, -⟩ := readMessage_eq_ok_iff.1 hm
      obtain ⟨p, -, named, element⟩ := entries.of_mem hpart
      exact ⟨⟨p.1, named⟩, p.2, element⟩
    · intro h
      obtain ⟨ps, entries⟩ := exists_entries h
      exact ⟨_, readMessage_eq_ok_iff.2 ⟨ps, entries, rfl⟩⟩
  simp only [← read]
  constructor
  · rintro ⟨found, h⟩ e he
    obtain ⟨ps, entries, -⟩ := messages_eq_ok_iff.1 h
    obtain ⟨p, -, named, hm⟩ := entries.of_mem he
    exact ⟨⟨p.1, named⟩, p.2, hm⟩
  · intro h
    obtain ⟨ps, entries⟩ := exists_entries h
    exact ⟨_, messages_eq_ok_iff.2 ⟨ps, entries, rfl⟩⟩

theorem findMessage_eq_ok_iff {action : String} :
    findMessage found name action = .ok m ↔ found.get? name = some m := by
  unfold findMessage
  cases found.get? name <;> simp

end Messages

section Ports

variable {root port e : Element} {d : Direction} {name operation : String} {ports : OrderedMap String PortOperation}

theorem portMessage_eq_ok_iff : portMessage operation port d = .ok name ↔ Sends port d name := by
  unfold portMessage Sends
  cases port.child? d.name with
  | none => exact ⟨nofun, fun ⟨_, _, h, _⟩ => nomatch h⟩
  | some node =>
    simp only [bind_eq_ok_iff]
    constructor
    · rintro ⟨q, hq, same⟩
      exact ⟨node, q, rfl, hq, Except.ok.inj same⟩
    · rintro ⟨_, q, ⟨⟩, hq, rfl⟩
      exact ⟨q, hq, rfl⟩

theorem Sends.unique {other : String} (h : Sends port d name) (h' : Sends port d other) : name = other :=
  have read {n : String} (h : Sends port d n) : portMessage "" port d = .ok n := portMessage_eq_ok_iff.2 h
  Except.ok.inj ((read h).symm.trans (read h'))

abbrev HasMessages (port : Element) (p : PortOperation) : Prop :=
  Sends port .input p.input ∧ Sends port .output p.output

theorem HasMessages.unique {p p' : PortOperation} (h : HasMessages port p) (h' : HasMessages port p') : p = p' := by
  obtain ⟨input, output⟩ := p
  obtain ⟨input', output'⟩ := p'
  obtain rfl : input = input' := h.1.unique h'.1
  obtain rfl : output = output' := h.2.unique h'.2
  rfl

theorem portOperations_eq_ok_iff : portOperations root = .ok ports ↔
    ∃ ps, Entries HasMessages (portNodes root) ps ∧ .ofList ps = ports := by
  refine foldlM_eq_ok_iff fun ports e ports' => ?_
  simp only [bind_eq_ok_iff, attr_eq_ok_iff, portMessage_eq_ok_iff]
  constructor
  · rintro ⟨name, named, input, hinput, output, houtput, same⟩
    exact ⟨name, ⟨input, output⟩, named, ⟨hinput, houtput⟩, Except.ok.inj same⟩
  · rintro ⟨name, p, named, has, rfl⟩
    exact ⟨name, named, p.input, has.1, p.output, has.2, rfl⟩

theorem get?_portOperations (h : portOperations root = .ok ports) {p : PortOperation} :
    ports.get? name = some p ↔ ∃ port, port? root name = some port ∧ HasMessages port p := by
  obtain ⟨ps, entries, rfl⟩ := portOperations_eq_ok_iff.1 h
  exact get?_ofList_iff (fun _ _ _ => HasMessages.unique) entries

theorem forall_direction_iff {P : Direction → Prop} : (∀ d, P d) ↔ P .input ∧ P .output := by
  constructor
  · exact fun h => ⟨h .input, h .output⟩
  · rintro ⟨input, output⟩ (_ | _)
    · exact input
    · exact output

theorem exists_portOperations_iff : (∃ ports, portOperations root = .ok ports) ↔
    ∀ port ∈ portNodes root, (∃ name, port.attr? "name" = some name) ∧ ∀ d, ∃ name, Sends port d name := by
  have has (port : Element) : (∀ d, ∃ name, Sends port d name) ↔ ∃ p, HasMessages port p := by
    rw [forall_direction_iff]
    constructor
    · rintro ⟨⟨input, hinput⟩, output, houtput⟩
      exact ⟨⟨input, output⟩, hinput, houtput⟩
    · rintro ⟨p, h⟩
      exact ⟨⟨p.input, h.1⟩, p.output, h.2⟩
  simp only [has]
  constructor
  · rintro ⟨ports, h⟩ port hport
    obtain ⟨ps, entries, -⟩ := portOperations_eq_ok_iff.1 h
    obtain ⟨p, -, named, hp⟩ := entries.of_mem hport
    exact ⟨⟨p.1, named⟩, p.2, hp⟩
  · intro h
    obtain ⟨ps, entries⟩ := exists_entries h
    exact ⟨_, portOperations_eq_ok_iff.2 ⟨ps, entries, rfl⟩⟩

end Ports

section Operations

variable {root message node header e : Element} {m : Message} {found : OrderedMap String Message}
  {ports : OrderedMap String PortOperation} {d : Direction} {action : String} {q : QName}

theorem PartsOf.lookup_iff (parts : PartsOf message m) {part : String} {fault : DocumentError} :
    (match m.get? part with
      | some element => pure element
      | none => throw fault : Except DocumentError QName) = .ok q ↔ HasPart message part q := by
  rw [← parts.get?_iff]
  cases m.get? part with
  | none => exact ⟨nofun, nofun⟩
  | some element => exact ⟨fun h => congrArg some (Except.ok.inj h), fun h => congrArg _ (Option.some.inj h)⟩

theorem bodyElement_eq_ok_iff (parts : PartsOf message m) : bodyElement action d node m = .ok q ↔
    ∃ part, BodyPart node message part ∧ HasPart message part q := by
  unfold bodyElement
  constructor
  · intro h
    dsimp only at h
    split at h
    · next body one =>
      split at h
      · next literal =>
        split at h
        · next told => exact ⟨_, .named one literal told, parts.lookup_iff.1 h⟩
        · next untold keys =>
          obtain ⟨nonempty, same⟩ := (parts.keys_iff _).1 keys
          exact ⟨_, .only one literal untold nonempty same, parts.lookup_iff.1 h⟩
        · cases h
      · cases h
    · cases h
  · rintro ⟨part, body, has⟩
    cases body with
    | named one literal told =>
      simp only [one, literal, told, if_true]
      exact parts.lookup_iff.2 has
    | only one literal untold nonempty same =>
      simp only [one, literal, untold, (parts.keys_iff part).2 ⟨nonempty, same⟩, if_true]
      exact parts.lookup_iff.2 has

theorem qname?_eq_none_iff {key : String} : header.qname? key = .ok none ↔ header.attr? key = none := by
  unfold Element.qname?
  cases header.attr? key with
  | none => simp
  | some value =>
    simp only [reduceCtorEq, iff_false]
    cases header.resolve value <;> exact nofun

theorem headerElements_eq_ok_iff (all : MessagesOf root found) (parts : PartsOf message m) {qs : List QName} :
    headerElements action node m found = .ok qs ↔
      List.Forall₂ (HeaderElement root message) (node.childrenNamed "header") qs := by
  unfold headerElements
  rw [mapM_eq_ok_iff]
  constructor
  · refine List.Forall₂.imp fun header q h => ?_
    obtain ⟨told, htold, h⟩ := bind_eq_ok_iff.1 h
    cases told with
    | none =>
      obtain ⟨_, ⟨⟩, h⟩ := bind_eq_ok_iff.1 h
      obtain ⟨part, named, h⟩ := bind_eq_ok_iff.1 h
      exact .own (qname?_eq_none_iff.1 htold) (attr_eq_ok_iff.1 named) (parts.lookup_iff.1 h)
    | some name =>
      obtain ⟨m', hm', h⟩ := bind_eq_ok_iff.1 h
      obtain ⟨part, named, h⟩ := bind_eq_ok_iff.1 h
      obtain ⟨message', found', read⟩ := (all.get?_iff _ _).1 (findMessage_eq_ok_iff.1 hm')
      exact .foreign htold found' (attr_eq_ok_iff.1 named) ((partsOf_of_readMessage read).lookup_iff.1 h)
  · refine List.Forall₂.imp fun header q h => ?_
    cases h with
    | own untold named has =>
      refine bind_eq_ok_iff.2 ⟨none, qname?_eq_none_iff.2 untold, ?_⟩
      exact bind_eq_ok_iff.2 ⟨m, rfl, bind_eq_ok_iff.2 ⟨_, attr_eq_ok_iff.2 named, parts.lookup_iff.2 has⟩⟩
    | foreign told found' named has =>
      obtain ⟨m', read⟩ := all.read _ _ found'
      refine bind_eq_ok_iff.2 ⟨_, told, bind_eq_ok_iff.2 ⟨m', ?_, ?_⟩⟩
      · exact findMessage_eq_ok_iff.2 ((all.get?_iff _ _).2 ⟨_, found', read⟩)
      · exact bind_eq_ok_iff.2 ⟨_, attr_eq_ok_iff.2 named, (partsOf_of_readMessage read).lookup_iff.2 has⟩

theorem direction_eq_ok_iff : direction action e d = .ok node ↔ e.child? d.name = some node := by
  unfold direction
  cases e.child? d.name <;> simp

theorem joins_iff (action : String) {port : Element} (all : MessagesOf root found) {name : String} (sends : Sends port d name)
    {body : QName} {headers : List QName} : Joins root port e d body headers ↔
      ∃ m node, findMessage found name action = .ok m ∧ direction action e d = .ok node ∧
        bodyElement action d node m = .ok body ∧ headerElements action node m found = .ok headers := by
  constructor
  · rintro ⟨name', message, node, sends', found', child, hbody, hheaders⟩
    obtain rfl := sends.unique sends'
    obtain ⟨m, read⟩ := all.read _ _ found'
    have parts := partsOf_of_readMessage read
    exact ⟨m, node, findMessage_eq_ok_iff.2 ((all.get?_iff _ _).2 ⟨message, found', read⟩), direction_eq_ok_iff.2 child,
      (bodyElement_eq_ok_iff parts).2 hbody, (headerElements_eq_ok_iff all parts).2 hheaders⟩
  · rintro ⟨m, node, hm, hnode, hbody, hheaders⟩
    obtain ⟨message, found', read⟩ := (all.get?_iff _ _).1 (findMessage_eq_ok_iff.1 hm)
    have parts := partsOf_of_readMessage read
    exact ⟨name, message, node, sends, found', direction_eq_ok_iff.1 hnode, (bodyElement_eq_ok_iff parts).1 hbody,
      (headerElements_eq_ok_iff all parts).1 hheaders⟩

theorem operation_eq_ok_iff (all : MessagesOf root found) (hports : portOperations root = .ok ports) {op : Operation} :
    operation found ports e = .ok op ↔ Joined root e op := by
  unfold operation
  constructor
  · intro h
    obtain ⟨action, named, h⟩ := bind_eq_ok_iff.1 h
    split at h
    · cases h
    next p hp =>
    obtain ⟨port, hport, has⟩ := (get?_portOperations hports).1 hp
    obtain ⟨inputMessage, hinputMessage, h⟩ := bind_eq_ok_iff.1 h
    obtain ⟨outputMessage, houtputMessage, h⟩ := bind_eq_ok_iff.1 h
    obtain ⟨inputNode, hinputNode, h⟩ := bind_eq_ok_iff.1 h
    obtain ⟨outputNode, houtputNode, h⟩ := bind_eq_ok_iff.1 h
    obtain ⟨input, hinput, h⟩ := bind_eq_ok_iff.1 h
    obtain ⟨output, houtput, h⟩ := bind_eq_ok_iff.1 h
    obtain ⟨inputHeaders, hinputHeaders, h⟩ := bind_eq_ok_iff.1 h
    obtain ⟨outputHeaders, houtputHeaders, h⟩ := bind_eq_ok_iff.1 h
    cases h
    refine ⟨attr_eq_ok_iff.1 named, port, hport, forall_direction_iff.2 ⟨?_, ?_⟩⟩
    · exact (joins_iff _ all has.1).2 ⟨inputMessage, inputNode, hinputMessage, hinputNode, hinput, hinputHeaders⟩
    · exact (joins_iff _ all has.2).2 ⟨outputMessage, outputNode, houtputMessage, houtputNode, houtput, houtputHeaders⟩
  · rintro ⟨named, port, hport, joins⟩
    obtain ⟨input, output⟩ := forall_direction_iff.1 joins
    obtain ⟨inputName, -, -, inputSends, -⟩ := input
    obtain ⟨outputName, -, -, outputSends, -⟩ := output
    have hp : ports.get? op.action = some ⟨inputName, outputName⟩ :=
      (get?_portOperations hports).2 ⟨port, hport, inputSends, outputSends⟩
    obtain ⟨inputMessage, inputNode, hinputMessage, hinputNode, hinput, hinputHeaders⟩ :=
      (joins_iff op.action all inputSends).1 (joins .input)
    obtain ⟨outputMessage, outputNode, houtputMessage, houtputNode, houtput, houtputHeaders⟩ :=
      (joins_iff op.action all outputSends).1 (joins .output)
    refine bind_eq_ok_iff.2 ⟨op.action, attr_eq_ok_iff.2 named, ?_⟩
    rw [hp]
    refine bind_eq_ok_iff.2 ⟨inputMessage, hinputMessage, bind_eq_ok_iff.2 ⟨outputMessage, houtputMessage, ?_⟩⟩
    refine bind_eq_ok_iff.2 ⟨inputNode, hinputNode, bind_eq_ok_iff.2 ⟨outputNode, houtputNode, ?_⟩⟩
    refine bind_eq_ok_iff.2 ⟨op.input, hinput, bind_eq_ok_iff.2 ⟨op.output, houtput, ?_⟩⟩
    exact bind_eq_ok_iff.2 ⟨op.inputHeaders, hinputHeaders, bind_eq_ok_iff.2 ⟨op.outputHeaders, houtputHeaders, rfl⟩⟩

/-- A description has operations if it is legible and has a binding, whose operations can all be joined. -/
theorem ofElement_eq_ok_iff {ops : List Operation} : ofElement root = .ok ops ↔
    Legible root ∧ ∃ binding, root.child? "binding" = some binding ∧
      List.Forall₂ (Joined root) (binding.childrenNamed "operation") ops := by
  unfold ofElement
  constructor
  · intro h
    by_cases definitions : root.localName = "definitions"
    case neg =>
      rw [if_pos definitions] at h
      cases h
    rw [if_neg (not_not.2 definitions)] at h
    obtain ⟨found, hfound, h⟩ := bind_eq_ok_iff.1 h
    obtain ⟨ports, hports, h⟩ := bind_eq_ok_iff.1 h
    have legible : Legible root :=
      ⟨definitions, exists_messages_iff.1 ⟨found, hfound⟩, exists_portOperations_iff.1 ⟨ports, hports⟩⟩
    split at h
    · cases h
    next binding hbinding =>
    refine ⟨legible, binding, hbinding, (mapM_eq_ok_iff.1 h).imp fun e op => ?_⟩
    exact (operation_eq_ok_iff (messagesOf_of_messages hfound) hports).1
  · rintro ⟨legible, binding, hbinding, joined⟩
    obtain ⟨found, hfound⟩ := exists_messages_iff.2 legible.messages
    obtain ⟨ports, hports⟩ := exists_portOperations_iff.2 legible.ports
    rw [if_neg (not_not.2 legible.definitions)]
    refine bind_eq_ok_iff.2 ⟨found, hfound, bind_eq_ok_iff.2 ⟨ports, hports, ?_⟩⟩
    rw [hbinding]
    refine mapM_eq_ok_iff.2 (joined.imp fun e op => ?_)
    exact (operation_eq_ok_iff (messagesOf_of_messages hfound) hports).2

end Operations

end Service

open Service in
/-- The operations of a text are the descriptors of the operations of its first binding, in their order; where one of
these has no descriptor, the text has no operations at all. -/
theorem operations_joined (text : String) (ops : List Operation) :
    Operation.allOfText text = .ok ops ↔
      ∃ root binding, Element.ofText text = .ok root ∧ Legible root ∧ root.child? "binding" = some binding ∧
        List.Forall₂ (Joined root) (binding.childrenNamed "operation") ops := by
  unfold Operation.allOfText
  rw [bind_eq_ok_iff]
  refine exists_congr fun root => ?_
  rw [ofElement_eq_ok_iff]
  constructor
  · rintro ⟨read, legible, binding, hbinding, joined⟩
    exact ⟨binding, read, legible, hbinding, joined⟩
  · rintro ⟨binding, read, legible, hbinding, joined⟩
    exact ⟨read, legible, binding, hbinding, joined⟩

end SchemaGraph
