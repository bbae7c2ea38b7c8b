import CanonicalVhdl.Json.Design
import CanonicalVhdl.Proofs.Json.Expr

/-!
# The JSON form of files, read back

Statements, declarations, units and files are decoded from their JSON forms.

## Main statements

* `Sequential.decode_json`, `Concurrent.decode_json`, `BodyItem.decode_json` — code of any depth.
* `DesignFile.ofJson?_json` — every file is decoded from its JSON form.
-/

namespace CanonicalVhdl

open Json (lt_of_variant lt_of_record lt_of_mem_array)

/-! ## Simple statements -/

theorem ObjectDecl.ofRecordJson?_recordJson (d : ObjectDecl) :
    ObjectDecl.ofRecordJson? d.objectClass d.recordJson = some d := by
  obtain ⟨c, name, type, value, comment, hvalued⟩ := d
  have hfields : (recordJson ⟨c, name, type, value, comment, hvalued⟩).record?
      ["name", "ty", defaultKey c, "comment"] = some [some name.json, some type.json,
        some (Expr.jsonOption value), some (Comment.jsonOption comment)] := by
    cases c <;> simp only [recordJson, defaultKey] <;> rfl
  simp only [ofRecordJson?, hfields, bind, Option.bind, Json.required_some, name.ofJson?_json,
    type.ofJson?_json, Expr.optional_jsonOption, Comment.optional_jsonOption]
  rw [ofTyped?, dif_pos hvalued]

theorem ObjectDecl.ofJson?_json (d : ObjectDecl) : ObjectDecl.ofJson? d.json = some d := by
  have hclass : ObjectClass.all.find? (fun c : ObjectClass => c.label.toList == d.objectClass.label.toList)
      = some d.objectClass := by
    cases d.objectClass <;> rfl
  show (do
    let c ← ObjectClass.all.find? fun c : ObjectClass => c.label.toList == d.objectClass.label.toList
    ObjectDecl.ofRecordJson? c d.recordJson) = _
  rw [hclass]
  exact d.ofRecordJson?_recordJson

theorem AssignmentKind.ofJson?_json (kind : AssignmentKind) :
    AssignmentKind.ofJson? (.name kind.label) = some kind := by
  cases kind <;> rfl

theorem Statement.ofJson?_variant {label : String} (h : label.toList ≠ "Null".toList) (c : Json) :
    Statement.ofJson? (.variant label c) = Statement.ofContents? label.toList c := by
  rw [Statement.ofJson?, Json.label?_variant_ne h, if_neg Bool.false_ne_true]
  rfl

/-- A statement is decoded from its JSON form. -/
theorem Statement.ofJson?_json (s : Statement) : Statement.ofJson? s.json = some s := by
  cases s with
  | declaration d =>
    exact (ofJson?_variant (by decide) d.json).trans (congrArg (Option.map declaration) d.ofJson?_json)
  | assignment target kind value =>
    refine (ofJson?_variant (by decide) _).trans ?_
    show (do
      let target ← Reference.ofJson? target.json
      let kind ← AssignmentKind.ofJson? (.name kind.label)
      let value ← Expr.ofJson? value.json
      some (assignment target kind value)) = _
    rw [target.ofJson?_json, kind.ofJson?_json, value.ofJson?_json]
    rfl
  | comment c => exact ofJson?_variant (by decide) c.json
  | null => rfl
  | result value =>
    exact (ofJson?_variant (by decide) _).trans
      (congrArg (Option.map result) (Expr.optional_jsonOption value))

/-! ## Sequential code -/

mutual

/-- A choice is decoded from its JSON form. -/
theorem Choice.decode_json :
    ∀ (c : Choice) {n : Nat}, c.json.depth < n → Choice.decode n c.json = some c
  | _, 0, h => absurd h (Nat.not_lt_zero _)
  | .value e, _ + 1, _ => by
    rw [Choice.json, Choice.decode, Json.label?_variant_ne (by decide), if_neg Bool.false_ne_true]
    exact congrArg (Option.map Choice.value) e.ofJson?_json
  | .range r, _ + 1, _ => by
    rw [Choice.json, Choice.decode, Json.label?_variant_ne (by decide), if_neg Bool.false_ne_true]
    exact congrArg (Option.map Choice.range) r.ofJson?_json
  | .alternatives choices, n + 1, h => by
    rw [Choice.json, Choice.decode, Json.label?_variant_ne (by decide), if_neg Bool.false_ne_true]
    exact congrArg (Option.map Choice.alternatives)
      (Choice.list_decode_json choices (lt_of_mem_array (Nat.lt_succ_of_lt (lt_of_variant h))))
  | .others, _ + 1, _ => rfl

/-- Choices are decoded from their JSON form. -/
theorem Choice.list_decode_json :
    ∀ (cs : List Choice) {n : Nat}, (∀ j ∈ Choice.jsonAll cs, j.depth < n) →
      Json.list (Choice.decode n) (.array (Choice.jsonAll cs)) = some cs
  | [], _, _ => rfl
  | c :: cs, _, h =>
    Json.list_cons (c.decode_json (h _ List.mem_cons_self))
      (Choice.list_decode_json cs fun j hj => h j (List.mem_cons_of_mem _ hj))

end

theorem Choice.ofJson?_json (c : Choice) : Choice.ofJson? c.json = some c :=
  c.decode_json (Nat.lt_succ_self _)

theorem Sequential.json_ne_null (s : Sequential) : s.json ≠ .null := by
  cases s <;> exact Json.variant_ne_null _ _

mutual

/-- Sequential code is decoded from its JSON form. -/
theorem Sequential.decode_json :
    ∀ (s : Sequential) {n : Nat}, s.json.depth < n → Sequential.decode n s.json = some s
  | _, 0, h => absurd h (Nat.not_lt_zero _)
  | .simple s, _ + 1, _ => congrArg (Option.map Sequential.simple) s.ofJson?_json
  | .conditional condition body otherwise, n + 1, h => by
    obtain ⟨-, hb, ho⟩ := lt_of_record (Nat.lt_succ_of_lt (lt_of_variant h))
    show (do
      let condition ← Expr.ofJson? condition.json
      let body ← Sequential.decode n body.json
      let otherwise ← Json.optional (Sequential.decode n) (some (Sequential.jsonOption otherwise))
      some (Sequential.conditional condition body otherwise)) = _
    rw [condition.ofJson?_json, body.decode_json hb, Sequential.optional_decode_json otherwise ho]
    rfl
  | .selection selector branches, n + 1, h => by
    obtain ⟨-, hb⟩ := lt_of_record (Nat.lt_succ_of_lt (lt_of_variant h))
    show (do
      let selector ← Expr.ofJson? selector.json
      let branches ← Json.list (Branch.decode n) (.array (Branch.jsonAll branches))
      some (Sequential.selection selector branches)) = _
    rw [selector.ofJson?_json,
      Branch.list_decode_json branches (lt_of_mem_array (Nat.lt_succ_of_lt hb))]
    rfl
  | .loop parameter range body, n + 1, h => by
    obtain ⟨-, -, hb⟩ := lt_of_record (Nat.lt_succ_of_lt (lt_of_variant h))
    show (do
      let parameter ← Ident.ofJson? parameter.json
      let range ← Range.ofJson? range.json
      let body ← Sequential.decode n body.json
      some (Sequential.loop parameter range body)) = _
    rw [parameter.ofJson?_json, range.ofJson?_json, body.decode_json hb]
    rfl
  | .region elements, n + 1, h =>
    congrArg (Option.map Sequential.region)
      (Sequential.list_decode_json elements
        (lt_of_mem_array (Nat.lt_succ_of_lt (lt_of_variant h))))

/-- Sequential code that may be missing is decoded from its JSON form. -/
theorem Sequential.optional_decode_json :
    ∀ (o : Option Sequential) {n : Nat}, (Sequential.jsonOption o).depth < n →
      Json.optional (Sequential.decode n) (some (Sequential.jsonOption o)) = some o
  | none, _, _ => rfl
  | some s, n, h => by
    rw [Sequential.jsonOption, Json.optional_of_ne_null s.json_ne_null, s.decode_json h]
    rfl

/-- A list of sequential code is decoded from its JSON form. -/
theorem Sequential.list_decode_json :
    ∀ (ss : List Sequential) {n : Nat}, (∀ j ∈ Sequential.jsonAll ss, j.depth < n) →
      Json.list (Sequential.decode n) (.array (Sequential.jsonAll ss)) = some ss
  | [], _, _ => rfl
  | s :: ss, _, h =>
    Json.list_cons (s.decode_json (h _ List.mem_cons_self))
      (Sequential.list_decode_json ss fun j hj => h j (List.mem_cons_of_mem _ hj))

/-- A branch is decoded from its JSON form. -/
theorem Branch.decode_json :
    ∀ (b : Branch) {n : Nat}, b.json.depth < n → Branch.decode n b.json = some b
  | _, 0, h => absurd h (Nat.not_lt_zero _)
  | .mk choice body, n + 1, h => by
    obtain ⟨-, hb⟩ := lt_of_record h
    show (do
      let choice ← Choice.ofJson? choice.json
      let body ← Sequential.decode n body.json
      some (Branch.mk choice body)) = _
    rw [choice.ofJson?_json, body.decode_json hb]
    rfl

/-- Branches are decoded from their JSON form. -/
theorem Branch.list_decode_json :
    ∀ (bs : List Branch) {n : Nat}, (∀ j ∈ Branch.jsonAll bs, j.depth < n) →
      Json.list (Branch.decode n) (.array (Branch.jsonAll bs)) = some bs
  | [], _, _ => rfl
  | b :: bs, _, h =>
    Json.list_cons (b.decode_json (h _ List.mem_cons_self))
      (Branch.list_decode_json bs fun j hj => h j (List.mem_cons_of_mem _ hj))

end

theorem Sequential.ofJson?_json (s : Sequential) : Sequential.ofJson? s.json = some s :=
  s.decode_json (Nat.lt_succ_self _)

/-! ## Concurrent code -/

theorem ConditionalWaveform.decode_json (w : ConditionalWaveform) :
    ∀ {n : Nat}, w.json.depth < n → ConditionalWaveform.decode n w.json = some w := by
  induction w with
  | value e =>
    intro n h
    cases n with
    | zero => exact absurd h (Nat.not_lt_zero _)
    | succ n => exact congrArg (Option.map value) e.ofJson?_json
  | choose v c rest ih =>
    intro n h
    cases n with
    | zero => exact absurd h (Nat.not_lt_zero _)
    | succ n =>
      obtain ⟨-, -, hr⟩ := lt_of_record (Nat.lt_succ_of_lt (lt_of_variant h))
      show (do
        let v ← Expr.ofJson? v.json
        let c ← Expr.ofJson? c.json
        let rest ← ConditionalWaveform.decode n rest.json
        some (choose v c rest)) = _
      rw [v.ofJson?_json, c.ofJson?_json, ih hr]
      rfl

theorem Waveform.ofJson?_json (w : Waveform) : Waveform.ofJson? w.json = some w := by
  cases w with
  | plain e => exact congrArg (Option.map plain) e.ofJson?_json
  | conditional chain =>
    exact congrArg (Option.map conditional) (chain.decode_json (Nat.lt_succ_self _))

theorem ConcurrentStatement.ofJson?_json (s : ConcurrentStatement) :
    ConcurrentStatement.ofJson? s.json = some s := by
  cases s with
  | assignment target value =>
    show (do
      let target ← Reference.ofJson? target.json
      let value ← Waveform.ofJson? value.json
      some (assignment target value)) = _
    rw [target.ofJson?_json, value.ofJson?_json]
    rfl
  | comment c => rfl

theorem ProcessStatement.ofJson?_json (p : ProcessStatement) :
    ProcessStatement.ofJson? p.json = some p := by
  show (do
    let label ← Json.optional Ident.ofJson? (some (Ident.jsonOption p.label))
    let sensitivity ← Json.list Ident.ofJson? (.array (p.sensitivity.map Ident.json))
    let declarations ← Json.list Statement.ofJson? (.array (p.declarations.map Statement.json))
    let body ← Sequential.ofJson? p.body.json
    some (ProcessStatement.mk label sensitivity declarations body)) = _
  rw [Ident.optional_jsonOption, Json.list_map fun i _ => i.ofJson?_json,
    Json.list_map fun s _ => s.ofJson?_json, p.body.ofJson?_json]
  rfl

theorem Actual.ofJson?_json (a : Actual) : Actual.ofJson? a.json = some a := by
  cases a with
  | value e =>
    rw [json, ofJson?, Json.label?_variant_ne (by decide), if_neg Bool.false_ne_true]
    exact congrArg (Option.map value) e.ofJson?_json
  | unconnected => rfl

theorem Reference.json_ne_null (r : Reference) : r.json ≠ .null := by
  cases r <;> exact Json.variant_ne_null _ _

theorem Association.ofJson?_json (a : Association) : Association.ofJson? a.json = some a := by
  show (do
    let formal ← Json.optional Reference.ofJson? (some (.ofOption (a.formal.map Reference.json)))
    let actual ← Actual.ofJson? a.actual.json
    some (Association.mk formal actual)) = _
  rw [Json.optional_ofOption (fun r _ => r.ofJson?_json) Reference.json_ne_null,
    a.actual.ofJson?_json]
  rfl

theorem InstanceSource.ofJson?_json (s : InstanceSource) : InstanceSource.ofJson? s.json = some s := by
  cases s with
  | component n => exact congrArg (Option.map component) n.ofJson?_json
  | entity library n architecture =>
    show (do
      let library ← Ident.ofJson? library.json
      let n ← Ident.ofJson? n.json
      let architecture ← Json.optional Ident.ofJson? (some (Ident.jsonOption architecture))
      some (entity library n architecture)) = _
    rw [library.ofJson?_json, n.ofJson?_json, Ident.optional_jsonOption]
    rfl

theorem Instance.ofJson?_json (i : Instance) : Instance.ofJson? i.json = some i := by
  show (do
    let label ← Ident.ofJson? i.label.json
    let source ← InstanceSource.ofJson? i.source.json
    let generics ← Json.list Association.ofJson? (.array (i.generics.map Association.json))
    let ports ← Json.list Association.ofJson? (.array (i.ports.map Association.json))
    some (Instance.mk label source generics ports)) = _
  rw [i.label.ofJson?_json, i.source.ofJson?_json, Json.list_map fun a _ => a.ofJson?_json,
    Json.list_map fun a _ => a.ofJson?_json]
  rfl

mutual

/-- Concurrent code is decoded from its JSON form. -/
theorem Concurrent.decode_json :
    ∀ (c : Concurrent) {n : Nat}, c.json.depth < n → Concurrent.decode n c.json = some c
  | _, 0, h => absurd h (Nat.not_lt_zero _)
  | .simple s, _ + 1, _ => congrArg (Option.map Concurrent.simple) s.ofJson?_json
  | .process p, _ + 1, _ => congrArg (Option.map Concurrent.process) p.ofJson?_json
  | .component i, _ + 1, _ => congrArg (Option.map Concurrent.component) i.ofJson?_json
  | .generate label parameter range body, n + 1, h => by
    obtain ⟨-, -, -, hb⟩ := lt_of_record (Nat.lt_succ_of_lt (lt_of_variant h))
    show (do
      let label ← Ident.ofJson? label.json
      let parameter ← Ident.ofJson? parameter.json
      let range ← Range.ofJson? range.json
      let body ← Concurrent.decode n body.json
      some (Concurrent.generate label parameter range body)) = _
    rw [label.ofJson?_json, parameter.ofJson?_json, range.ofJson?_json, body.decode_json hb]
    rfl
  | .region elements, n + 1, h =>
    congrArg (Option.map Concurrent.region)
      (Concurrent.list_decode_json elements
        (lt_of_mem_array (Nat.lt_succ_of_lt (lt_of_variant h))))

/-- A list of concurrent code is decoded from its JSON form. -/
theorem Concurrent.list_decode_json :
    ∀ (cs : List Concurrent) {n : Nat}, (∀ j ∈ Concurrent.jsonAll cs, j.depth < n) →
      Json.list (Concurrent.decode n) (.array (Concurrent.jsonAll cs)) = some cs
  | [], _, _ => rfl
  | c :: cs, _, h =>
    Json.list_cons (c.decode_json (h _ List.mem_cons_self))
      (Concurrent.list_decode_json cs fun j hj => h j (List.mem_cons_of_mem _ hj))

end

theorem Concurrent.ofJson?_json (c : Concurrent) : Concurrent.ofJson? c.json = some c :=
  c.decode_json (Nat.lt_succ_self _)

/-! ## Declarations -/

theorem Port.ofJson?_json (p : Port) : Port.ofJson? p.json = some p := by
  show (do
    let name ← Ident.ofJson? p.name.json
    let mode ← Mode.ofJson? p.mode.json
    let type ← TypeMark.ofJson? p.type.json
    let value ← Json.optional Expr.ofJson? (some (Expr.jsonOption p.default))
    let comment ← Json.optional Comment.ofJson? (some (Comment.jsonOption p.comment))
    some (Port.mk name mode type value comment)) = _
  rw [p.name.ofJson?_json, p.mode.ofJson?_json, p.type.ofJson?_json, Expr.optional_jsonOption,
    Comment.optional_jsonOption]
  rfl

theorem Generic.ofJson?_json (g : Generic) : Generic.ofJson? g.json = some g := by
  show (do
    let name ← Ident.ofJson? g.name.json
    let type ← TypeMark.ofJson? g.type.json
    let value ← Json.optional Expr.ofJson? (some (Expr.jsonOption g.default))
    let comment ← Json.optional Comment.ofJson? (some (Comment.jsonOption g.comment))
    some (Generic.mk name type value comment)) = _
  rw [g.name.ofJson?_json, g.type.ofJson?_json, Expr.optional_jsonOption,
    Comment.optional_jsonOption]
  rfl

theorem PortClause.ofJson?_json (c : PortClause) : PortClause.ofJson? c.json = some c := by
  show (do
    let ports ← Json.list Port.ofJson? (.array (c.ports.map Port.json))
    some (PortClause.mk ports)) = _
  rw [Json.list_map fun p _ => p.ofJson?_json]
  rfl

theorem GenericClause.ofJson?_json (c : GenericClause) : GenericClause.ofJson? c.json = some c := by
  show (do
    let generics ← Json.list Generic.ofJson? (.array (c.generics.map Generic.json))
    some (GenericClause.mk generics)) = _
  rw [Json.list_map fun g _ => g.ofJson?_json]
  rfl

theorem Interface.ofJson?_json (u : Interface) : Interface.ofJson? u.json = some u := by
  show (do
    let name ← Ident.ofJson? u.name.json
    let generics ← Json.optional GenericClause.ofJson?
      (some (.ofOption (u.generics.map GenericClause.json)))
    let ports ← Json.optional PortClause.ofJson? (some (.ofOption (u.ports.map PortClause.json)))
    some (Interface.mk name generics ports)) = _
  have hgenerics := Json.optional_ofOption (o := u.generics) (fun c _ => c.ofJson?_json)
    fun _ => Json.record_ne_null _
  have hports := Json.optional_ofOption (o := u.ports) (fun c _ => c.ofJson?_json)
    fun _ => Json.record_ne_null _
  rw [u.name.ofJson?_json, hgenerics, hports]
  rfl

theorem RecordField.ofJson?_json (f : RecordField) : RecordField.ofJson? f.json = some f := by
  show (do
    let name ← Ident.ofJson? f.name.json
    let type ← TypeMark.ofJson? f.type.json
    let comment ← Json.optional Comment.ofJson? (some (Comment.jsonOption f.comment))
    some (RecordField.mk name type comment)) = _
  rw [f.name.ofJson?_json, f.type.ofJson?_json, Comment.optional_jsonOption]
  rfl

theorem TypeDecl.ofJson?_json (d : TypeDecl) : TypeDecl.ofJson? d.json = some d := by
  cases d with
  | enumeration n values =>
    show (do
      let n ← Ident.ofJson? n.json
      let values ← Json.list Ident.ofJson? (.array (values.map Ident.json))
      some (enumeration n values)) = _
    rw [n.ofJson?_json, Json.list_map fun i _ => i.ofJson?_json]
    rfl
  | record n fields =>
    show (do
      let n ← Ident.ofJson? n.json
      let fields ← Json.list RecordField.ofJson? (.array (fields.map RecordField.json))
      some (record n fields)) = _
    rw [n.ofJson?_json, Json.list_map fun f _ => f.ofJson?_json]
    rfl
  | array n range element =>
    show (do
      let n ← Ident.ofJson? n.json
      let range ← Range.ofJson? range.json
      let element ← TypeMark.ofJson? element.json
      some (array n range element)) = _
    rw [n.ofJson?_json, range.ofJson?_json, element.ofJson?_json]
    rfl

theorem Parameter.ofJson?_json (p : Parameter) : Parameter.ofJson? p.json = some p := by
  show (do
    let name ← Ident.ofJson? p.name.json
    let type ← TypeMark.ofJson? p.type.json
    some (Parameter.mk name type)) = _
  rw [p.name.ofJson?_json, p.type.ofJson?_json]
  rfl

theorem Signature.ofJson?_json (s : Signature) : Signature.ofJson? s.json = some s := by
  show (do
    let name ← Ident.ofJson? s.name.json
    let parameters ← Json.list Parameter.ofJson? (.array (s.parameters.map Parameter.json))
    let result ← TypeMark.ofJson? s.result.json
    some (Signature.mk name parameters result)) = _
  rw [s.name.ofJson?_json, Json.list_map fun p _ => p.ofJson?_json, s.result.ofJson?_json]
  rfl

theorem FunctionBody.ofJson?_json (f : FunctionBody) : FunctionBody.ofJson? f.json = some f := by
  show (do
    let signature ← Signature.ofJson? f.signature.json
    let declarations ← Json.list Statement.ofJson? (.array (f.declarations.map Statement.json))
    let body ← Sequential.ofJson? f.body.json
    some (FunctionBody.mk signature declarations body)) = _
  rw [f.signature.ofJson?_json, Json.list_map fun s _ => s.ofJson?_json, f.body.ofJson?_json]
  rfl

theorem Declaration.ofJson?_json (d : Declaration) : Declaration.ofJson? d.json = some d := by
  cases d with
  | object d => exact congrArg (Option.map object) d.ofJson?_json
  | comment c => rfl
  | type d => exact congrArg (Option.map type) d.ofJson?_json
  | component c => exact congrArg (Option.map component) c.ofJson?_json
  | signature s => exact congrArg (Option.map signature) s.ofJson?_json
  | function f => exact congrArg (Option.map function) f.ofJson?_json

theorem DeclarativePart.ofJson?_json (p : DeclarativePart) :
    DeclarativePart.ofJson? p.json = some p := by
  show (do
    let items ← Json.list Declaration.ofJson? (.array (p.items.map Declaration.json))
    some (DeclarativePart.mk items)) = _
  rw [Json.list_map fun d _ => d.ofJson?_json]
  rfl

/-! ## Units and files -/

theorem Architecture.ofJson?_json (a : Architecture) : Architecture.ofJson? a.json = some a := by
  show (do
    let name ← Ident.ofJson? a.name.json
    let entity ← Ident.ofJson? a.entity.json
    let head ← DeclarativePart.ofJson? a.head.json
    let body ← Concurrent.ofJson? a.body.json
    some (Architecture.mk name entity head body)) = _
  rw [a.name.ofJson?_json, a.entity.ofJson?_json, a.head.ofJson?_json, a.body.ofJson?_json]
  rfl

theorem Package.ofJson?_json (p : Package) : Package.ofJson? p.json = some p := by
  show (do
    let name ← Ident.ofJson? p.name.json
    let items ← Json.list Declaration.ofJson? (.array (p.items.map Declaration.json))
    some (Package.mk name items)) = _
  rw [p.name.ofJson?_json, Json.list_map fun d _ => d.ofJson?_json]
  rfl

mutual

/-- The contents of a package body are decoded from their JSON form. -/
theorem BodyItem.decode_json :
    ∀ (i : BodyItem) {n : Nat}, i.json.depth < n → BodyItem.decode n i.json = some i
  | _, 0, h => absurd h (Nat.not_lt_zero _)
  | .function f, _ + 1, _ => congrArg (Option.map BodyItem.function) f.ofJson?_json
  | .object d, _ + 1, _ => congrArg (Option.map BodyItem.object) d.ofJson?_json
  | .type d, _ + 1, _ => congrArg (Option.map BodyItem.type) d.ofJson?_json
  | .comment _, _ + 1, _ => rfl
  | .items elements, _ + 1, h =>
    congrArg (Option.map BodyItem.items)
      (BodyItem.list_decode_json elements (lt_of_mem_array (Nat.lt_succ_of_lt (lt_of_variant h))))

/-- A list of contents is decoded from its JSON form. -/
theorem BodyItem.list_decode_json :
    ∀ (is : List BodyItem) {n : Nat}, (∀ j ∈ BodyItem.jsonAll is, j.depth < n) →
      Json.list (BodyItem.decode n) (.array (BodyItem.jsonAll is)) = some is
  | [], _, _ => rfl
  | i :: is, _, h =>
    Json.list_cons (i.decode_json (h _ List.mem_cons_self))
      (BodyItem.list_decode_json is fun j hj => h j (List.mem_cons_of_mem _ hj))

end

theorem PackageBody.ofJson?_json (b : PackageBody) : PackageBody.ofJson? b.json = some b := by
  show (do
    let name ← Ident.ofJson? b.name.json
    let body ← BodyItem.decode (b.body.json.depth + 1) b.body.json
    some (PackageBody.mk name body)) = _
  rw [b.name.ofJson?_json, b.body.decode_json (Nat.lt_succ_self _)]
  rfl

theorem ContextClause.ofJson?_json (c : ContextClause) : ContextClause.ofJson? c.json = some c := by
  cases c with
  | library name => exact congrArg (Option.map library) name.ofJson?_json
  | use path all =>
    show (do
      let path ← Json.list Ident.ofJson? (.array (path.map Ident.json))
      some (use path all)) = _
    rw [Json.list_map fun i _ => i.ofJson?_json]
    rfl

/-- Every file is decoded from its JSON form. -/
theorem DesignFile.ofJson?_json (f : DesignFile) : DesignFile.ofJson? f.json = some f := by
  show (do
    let header ← Json.list Comment.ofJson? (.array (f.header.map Comment.json))
    let context ← Json.list ContextClause.ofJson? (.array (f.context.map ContextClause.json))
    let packages ← Json.list Package.ofJson? (.array (f.packages.map Package.json))
    let packageBodies ← Json.list PackageBody.ofJson?
      (.array (f.packageBodies.map PackageBody.json))
    let entities ← Json.list Interface.ofJson? (.array (f.entities.map Interface.json))
    let architectures ← Json.list Architecture.ofJson?
      (.array (f.architectures.map Architecture.json))
    some (DesignFile.mk header context packages packageBodies entities architectures)) = _
  rw [Json.list_map fun c _ => c.ofJson?_json, Json.list_map fun c _ => c.ofJson?_json,
    Json.list_map fun p _ => p.ofJson?_json, Json.list_map fun b _ => b.ofJson?_json,
    Json.list_map fun u _ => u.ofJson?_json, Json.list_map fun a _ => a.ofJson?_json]
  rfl

end CanonicalVhdl
