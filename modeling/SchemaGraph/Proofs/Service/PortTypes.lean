import SchemaGraph.Proofs.Service.Joins

/-! Which port type gives an operation its messages.  The binding has no say in this: of the port types that declare an
operation with the name the last one counts, also where the binding is of another one. -/
namespace SchemaGraph

open Markup (Element)

namespace Service

def portOf? (portType : Element) (name : String) : Option Element :=
  lastNamed? (portType.childrenNamed "operation") name

/-- The type of the binding is the name of the port type in the target namespace of the document. -/
structure Binds (root binding portType : Element) : Prop where
  listed : portType ∈ root.childrenNamed "portType"
  named : ∃ name, portType.attr? "name" = some name ∧
    binding.qname "type" = .ok ⟨root.attr? "targetNamespace", name⟩

def SameMessages (port port' : Element) : Prop := ∀ d name, Sends port d name ↔ Sends port' d name

variable {root port port' e : Element} {name : String}

theorem Joins.of_same (same : SameMessages port port') {d : Direction} {body : QName} {headers : List QName}
    (h : Joins root port' e d body headers) : Joins root port e d body headers := by
  obtain ⟨name, message, node, sends, rest⟩ := h
  exact ⟨name, message, node, (same d name).2 sends, rest⟩

theorem lastNamed?_append (l l' : List Element) (name : String) :
    lastNamed? (l ++ l') name = (lastNamed? l' name).or (lastNamed? l name) := by
  unfold lastNamed?
  rw [List.filter_append, List.getLast?_append]

theorem exists_of_lastNamed?_flatMap {f : Element → List Element} {l : List Element}
    (h : lastNamed? (l.flatMap f) name = some e) :
    ∃ before a after, l = before ++ a :: after ∧ lastNamed? (f a) name = some e ∧
      ∀ later ∈ after, lastNamed? (f later) name = none := by
  induction l with
  | nil => cases h
  | cons a l ih =>
    rw [List.flatMap_cons, lastNamed?_append] at h
    cases later : lastNamed? (l.flatMap f) name with
    | some e' =>
      rw [later, Option.some_or] at h
      obtain ⟨before, b, after, rfl, here, behind⟩ := ih (later.trans h)
      exact ⟨a :: before, b, after, rfl, here, behind⟩
    | none =>
      rw [later, Option.none_or] at h
      refine ⟨[], a, l, rfl, h, fun b hb => ?_⟩
      unfold lastNamed? at later ⊢
      rw [List.getLast?_eq_none_iff, List.filter_eq_nil_iff] at later ⊢
      exact fun c hc => later c (List.mem_flatMap.2 ⟨b, hb, hc⟩)

theorem exists_port? {before after : List Element} {own : Element}
    (split : root.childrenNamed "portType" = before ++ own :: after) (declares : portOf? own name = some port)
    (agree : ∀ later ∈ after, ∀ other, portOf? later name = some other → SameMessages port other) :
    ∃ port', port? root name = some port' ∧ SameMessages port port' := by
  unfold port? portNodes
  rw [split, List.flatMap_append, List.flatMap_cons, lastNamed?_append, lastNamed?_append]
  cases behind : lastNamed? (after.flatMap (·.childrenNamed "operation")) name with
  | some other =>
    obtain ⟨_, later, _, rfl, here, -⟩ := exists_of_lastNamed?_flatMap behind
    exact ⟨other, rfl, agree later (List.mem_append_right _ List.mem_cons_self) other here⟩
  | none =>
    refine ⟨port, ?_, fun _ _ => Iff.rfl⟩
    change (portOf? own name).or _ = _
    rw [declares, Option.some_or]

end Service

open Service in
/-- The messages of an operation are those of the last port type that declares it; they are those of the port type that
the binding is of, unless one behind it declares the operation with other messages. -/
theorem last_port_type_decides {text : String} {ops : List Operation} (read : Operation.allOfText text = .ok ops) :
    ∃ root binding, Element.ofText text = .ok root ∧ root.child? "binding" = some binding ∧
      List.Forall₂ (fun e op => e.attr? "name" = some op.action ∧
        (∃ before portType after port, root.childrenNamed "portType" = before ++ portType :: after ∧
          portOf? portType op.action = some port ∧ (∀ later ∈ after, portOf? later op.action = none) ∧
          ∀ d, Joins root port e d (op.body d) (op.headers d)) ∧
        ∀ before own after port, root.childrenNamed "portType" = before ++ own :: after → Binds root binding own →
          portOf? own op.action = some port →
          (∀ later ∈ after, ∀ other, portOf? later op.action = some other → SameMessages port other) →
          ∀ d, Joins root port e d (op.body d) (op.headers d))
        (binding.childrenNamed "operation") ops := by
  obtain ⟨root, hroot, read⟩ := bind_eq_ok_iff.1 read
  obtain ⟨-, binding, hbinding, joined⟩ := ofElement_eq_ok_iff.1 read
  refine ⟨root, binding, hroot, hbinding, joined.imp fun e op h => ?_⟩
  obtain ⟨named, port, hport, joins⟩ := h
  refine ⟨named, ?_, fun before own after port' split _ declares agree d => ?_⟩
  · obtain ⟨before, portType, after, split, declares, last⟩ := exists_of_lastNamed?_flatMap hport
    exact ⟨before, portType, after, port, split, declares, last, joins⟩
  · obtain ⟨decider, hdecider, same⟩ := exists_port? split declares agree
    obtain rfl := Option.some.inj (hport.symm.trans hdecider)
    exact (joins d).of_same same

/-- A service with one operation in two port types, the first for envelopes and the second for forms, and with a binding
of the port type `bound`. -/
def rateService (bound : String) : String :=
  "<wsdl:definitions xmlns:wsdl='http://schemas.xmlsoap.org/wsdl/' xmlns:soap='http://schemas.xmlsoap.org/wsdl/soap/'" ++
  " xmlns:m='urn:rates' targetNamespace='urn:rates'>" ++
  "<wsdl:message name='Envelope'><wsdl:part name='body' element='m:Ask'/></wsdl:message>" ++
  "<wsdl:message name='Form'><wsdl:part name='body' element='m:Post'/></wsdl:message>" ++
  "<wsdl:portType name='Soap'><wsdl:operation name='Rate'><wsdl:input message='m:Envelope'/>" ++
  "<wsdl:output message='m:Envelope'/></wsdl:operation></wsdl:portType>" ++
  "<wsdl:portType name='Http'><wsdl:operation name='Rate'><wsdl:input message='m:Form'/>" ++
  "<wsdl:output message='m:Form'/></wsdl:operation></wsdl:portType>" ++
  "<wsdl:binding name='Rates' type='m:" ++ bound ++ "'><wsdl:operation name='Rate'>" ++
  "<wsdl:input><soap:body use='literal'/></wsdl:input><wsdl:output><soap:body use='literal'/></wsdl:output>" ++
  "</wsdl:operation></wsdl:binding></wsdl:definitions>"

def rateOperation : Operation :=
  ⟨"Rate", ⟨some "urn:rates", "Post"⟩, ⟨some "urn:rates", "Post"⟩, [], []⟩

theorem rateService_http :
    ((Element.ofText (rateService "Http")).toOption.any fun root =>
      (Service.ofElement root).toOption == some [rateOperation] &&
      (root.child? "binding").any fun binding =>
        (binding.qname "type").toOption == some ⟨root.attr? "targetNamespace", "Http"⟩ &&
      (root.childrenNamed "portType").getLast?.any fun own => own.attr? "name" == some "Http" &&
        (Service.portOf? own "Rate").isSome) = true := by
  unfold Element.ofText rateService
  simp only [String.toList_append]
  repeat rw [String.toList_ofList]
  decide +kernel

theorem eq_ok_of_toOption {ε α : Type} {x : Except ε α} {a : α} (h : x.toOption = some a) : x = .ok a := by
  cases x with
  | ok b => exact congrArg _ (Option.some.inj h)
  | error e => cases h

open Service in
theorem rates_by_form :
    ∃ root binding own port e, Operation.allOfText (rateService "Http") = .ok [rateOperation] ∧
      Element.ofText (rateService "Http") = .ok root ∧ root.child? "binding" = some binding ∧ Binds root binding own ∧
      e ∈ binding.childrenNamed "operation" ∧ portOf? own "Rate" = some port ∧
      ∀ d, Joins root port e d (rateOperation.body d) (rateOperation.headers d) := by
  obtain ⟨root, hroot, run⟩ := exists_eq_ok_of_any rateService_http
  simp only [Bool.and_eq_true, Option.any_eq_true, beq_iff_eq] at run
  obtain ⟨operations, binding, hbinding, type, own, hown, named, declares⟩ := run
  obtain ⟨before, split⟩ := List.getLast?_eq_some_iff.1 hown
  obtain ⟨port, hport⟩ := Option.isSome_iff_exists.1 declares
  have read : Operation.allOfText (rateService "Http") = .ok [rateOperation] :=
    bind_eq_ok_iff.2 ⟨root, hroot, eq_ok_of_toOption operations⟩
  have binds : Binds root binding own :=
    ⟨split ▸ List.mem_append_right _ List.mem_cons_self, "Http", named, eq_ok_of_toOption type⟩
  obtain ⟨root', binding', hroot', hbinding', decided⟩ := last_port_type_decides read
  obtain rfl := Except.ok.inj (hroot.symm.trans hroot')
  obtain rfl := Option.some.inj (hbinding.symm.trans hbinding')
  obtain ⟨e, _, ⟨-, -, byOwn⟩, _, listed⟩ := List.forall₂_cons_right_iff.1 decided
  refine ⟨root, binding, own, port, e, read, hroot, hbinding, binds, listed ▸ List.mem_cons_self, hport, ?_⟩
  exact byOwn before own [] port split binds hport fun _ h => absurd h List.not_mem_nil

theorem rateService_soap :
    ((Element.ofText (rateService "Soap")).toOption.any fun root =>
      (Service.ofElement root).toOption == some [rateOperation] &&
      (Service.messages root).toOption.any fun found =>
      (root.child? "binding").any fun binding =>
        (binding.qname "type").toOption == some ⟨root.attr? "targetNamespace", "Soap"⟩ &&
      (binding.childrenNamed "operation").any fun e => e.attr? "name" == some "Rate" &&
      (root.childrenNamed "portType").any fun own => own.attr? "name" == some "Soap" &&
      (Service.portOf? own "Rate").any fun port =>
        (Service.portMessage "Rate" port .input).toOption == some "Envelope" &&
      (Service.findMessage found "Envelope" "Rate").toOption.any fun m =>
      (Service.direction "Rate" e .input).toOption.any fun node =>
        (Service.bodyElement "Rate" .input node m).toOption == some ⟨some "urn:rates", "Ask"⟩) = true := by
  unfold Element.ofText rateService
  simp only [String.toList_append]
  repeat rw [String.toList_ofList]
  decide +kernel

open Service in
/-- An operation can get its messages from a port type that its binding is not of. -/
theorem rates_by_other_form :
    ∃ root binding own port e, Operation.allOfText (rateService "Soap") = .ok [rateOperation] ∧
      Element.ofText (rateService "Soap") = .ok root ∧ root.child? "binding" = some binding ∧ Binds root binding own ∧
      e ∈ binding.childrenNamed "operation" ∧ e.attr? "name" = some rateOperation.action ∧
      portOf? own rateOperation.action = some port ∧
      ¬ Joins root port e .input (rateOperation.body .input) (rateOperation.headers .input) := by
  obtain ⟨root, hroot, run⟩ := exists_eq_ok_of_any rateService_soap
  simp only [Bool.and_eq_true, Option.any_eq_true, List.any_eq_true, beq_iff_eq] at run
  obtain ⟨operations, found, hfound, binding, hbinding, type, e, listed, named, own, hown, ownName, port, hport, sends,
    m, hm, node, hnode, hbody⟩ := run
  have all : MessagesOf root found := messagesOf_of_messages (eq_ok_of_toOption hfound)
  have sends : Sends port .input "Envelope" := portMessage_eq_ok_iff.1 (eq_ok_of_toOption sends)
  refine ⟨root, binding, own, port, e, bind_eq_ok_iff.2 ⟨root, hroot, eq_ok_of_toOption operations⟩, hroot, hbinding,
    ⟨hown, "Soap", ownName, eq_ok_of_toOption type⟩, listed, named, hport, fun joins => ?_⟩
  obtain ⟨m', node', hm', hnode', hbody', -⟩ := (joins_iff "Rate" all sends).1 joins
  obtain rfl := Except.ok.inj ((eq_ok_of_toOption hm).symm.trans hm')
  obtain rfl := Except.ok.inj ((eq_ok_of_toOption hnode).symm.trans hnode')
  have same := Except.ok.inj ((eq_ok_of_toOption hbody).symm.trans hbody')
  revert same
  decide

end SchemaGraph
