import BitLayout.Expansion
import BitLayout.Proofs.Decl.Cycles

/-!
# BitLayout.Proofs.Expansion

Both procedures or neither, and no error lost. Four stages find faults, and what they find is
reported in their order:

```
arguments  ->  declarations  ->  data objects  ->  packing
```

The last two stages need the settings that the arguments make. The two procedures stand in the
module if no stage has found a fault. Otherwise every fault stands behind the module once, and the
module is what it was but for its options.

This is so unless there is no answer at all. Three things stop the last two stages without a fault:
a type on the wire that comes back to itself, a sector whose bits cannot be counted, and a name of
which no other name can be made.

* `Module.faults`: what the stages find;
* `Config.Stops`, `generateProgram_eq_none_iff`: what stops them;
* `Definition.Loses`: what becomes of the items;
* `Module.tokens_extended_ne`: code in a module is not code behind it.

Main statement: `Module.expand_both_or_neither`.
-/

namespace BitLayout

/-! ## faults -/

/-- What is wrong with arguments. -/
def Config.faults (arguments : Tokens) : List Fault :=
  match ofArguments arguments with
  | .ok _ => []
  | .error errors => errors.map Fault.config

/-- What is wrong with the packing of data objects. -/
def Model.packingFaults (c : Config) (m : Model) : List Fault :=
  match pack c.capacity c.sectorCount m.groups with
  | .ok _ => []
  | .error e => [.packing e]

/-- A name that a program needs cannot be made: that of a record which is moved whole, or the one
that is made for a listing, is no identifier. -/
def Program.Unnameable (c : Config) (m : Model) (sectors : List Sector) : Prop :=
  (∃ record ∈ recordsNeeded c m sectors, Text.isIdentifier record = false) ∨
    ∃ listing ∈ listingsOf c m, Text.isIdentifier listing.1 = false

/-- What keeps the data objects of some declarations from a program and from faults alike. -/
inductive Config.Stops (c : Config) (g : Registry) : Prop where
  /-- A type on the wire comes back to itself, so taking data objects apart never ends. -/
  | cycle {w : TypeExpr} (hw : c.Declared g none w) (h : Relation.TransGen (c.Leads g) w w)
  /-- The bits of a sector cannot be counted in 64 bits. -/
  | capacity (h : patterns 64 ≤ c.capacity)
  /-- Nothing is wrong, but a name is missing. -/
  | name {m : Model} {sectors : List Sector} (hm : Model.build c g = some m)
    (herrors : m.errors = []) (hpack : pack c.capacity c.sectorCount m.groups = .ok sectors)
    (h : Program.Unnameable c m sectors)

/-- Arguments that make no settings have something wrong with them. -/
theorem Arguments.finish_ne_nil {args : Arguments} {errors : List ConfigError}
    (h : args.finish = .error errors) : errors ≠ [] := by
  unfold finish at h
  dsimp only at h
  split at h
  · cases h
  · next hincomplete =>
    cases h
    intro hnil
    rw [List.append_eq_nil_iff, List.append_eq_nil_iff, List.append_eq_nil_iff] at hnil
    obtain ⟨⟨⟨hnone, hsize⟩, hread⟩, hsave⟩ := hnil
    have hstated {α : Type} {o : Option α} {e : ConfigError}
        (h : (if o.isNone = true then [e] else []) = []) : ∃ a, o = some a := by
      cases o with
      | none => cases h
      | some a => exact ⟨a, rfl⟩
    obtain ⟨sectorSize, hsize⟩ := hstated hsize
    obtain ⟨readName, hread⟩ := hstated hread
    obtain ⟨saveName, hsave⟩ := hstated hsave
    exact hincomplete sectorSize readName saveName hnone hsize hread hsave

theorem Config.ofArguments_ne_nil {arguments : Tokens} {errors : List ConfigError}
    (h : ofArguments arguments = .error errors) : errors ≠ [] := by
  unfold ofArguments at h
  split at h
  · exact Arguments.finish_ne_nil h
  · cases h
    exact List.cons_ne_nil _ _

/-! ## items -/

/-- The attributes of the fields of a record. -/
def RecordBody.attributes : RecordBody → List (List Attribute)
  | named fields _ => fields.map FieldDefinition.attrs
  | positional fields _ => fields.map PositionalField.attrs
  | unit => []

/-- Fields without any attributes. -/
def RecordBody.bare : RecordBody → RecordBody
  | named fields comma => named (fields.map ({ · with attrs := [] })) comma
  | positional fields comma => positional (fields.map ({ · with attrs := [] })) comma
  | unit => unit

/-- The attributes of an item where options can stand: its own, and those of its fields. -/
def Definition.attributes : Definition → List (List Attribute)
  | record r => r.attrs :: r.body.attributes
  | typeAlias a => [a.attrs]
  | other _ => []

/-- An item without any attributes where options can stand. -/
def Definition.bare : Definition → Definition
  | record r => record { r with attrs := [], body := r.body.bare }
  | typeAlias a => typeAlias { a with attrs := [] }
  | other fragment => other fragment

/-- An item becomes another one that differs in nothing but the options, which it has lost. -/
structure Definition.Loses (item plain : Definition) : Prop where
  bare : plain.bare = item.bare
  attributes : plain.attributes =
    item.attributes.map (·.filter fun a => a.path ≠ .ofWord "bitpack")

theorem RecordBody.bare_withoutOptions (body : RecordBody) :
    body.withoutOptions.bare = body.bare := by
  cases body <;> simp [withoutOptions, bare]

theorem RecordBody.attributes_withoutOptions (body : RecordBody) :
    body.withoutOptions.attributes = body.attributes.map withoutLayout := by
  cases body <;> simp [withoutOptions, attributes]

theorem Definition.loses_withoutOptions (item : Definition) : item.Loses item.withoutOptions := by
  have hfilter : (fun attrs : List Attribute => attrs.filter fun a => a.path ≠ .ofWord "bitpack") =
      withoutLayout := by
    funext attrs
    simp [withoutLayout, Attribute.isLayout, Attribute.isNamed]
  cases item with
  | record r =>
    refine ⟨?_, ?_⟩
    · simp only [withoutOptions, bare, RecordBody.bare_withoutOptions]
    · rw [hfilter]
      simp only [withoutOptions, attributes, RecordBody.attributes_withoutOptions, List.map_cons]
  | typeAlias a => exact ⟨rfl, by rw [hfilter]; rfl⟩
  | other fragment => exact ⟨rfl, rfl⟩

namespace Module

/-- The items of a module. -/
def items (m : Module) : List Definition := m.content.elim [] Prod.snd

/-- What is wrong with a module under some arguments, stage by stage; `none` if taking its data
objects apart never ends. -/
def faults (arguments : Tokens) (m : Module) : Option (List Fault) :=
  match m.content with
  | none => some (Config.faults arguments ++ [.notInline])
  | some _ =>
    let (registry, errors) := Registry.collect m.items
    match Config.ofArguments arguments with
    | .error _ => some (Config.faults arguments ++ errors.map Fault.declaration)
    | .ok c => (Model.build c registry).map fun model =>
      errors.map Fault.declaration ++ model.errors.map Fault.data ++ model.packingFaults c

/-- A module without its options. -/
def plain (m : Module) : Module :=
  { m with content := m.content.map fun (attrs, items) =>
      (attrs, items.map Definition.withoutOptions) }

/-- A module without its options, with code behind its items. -/
def extended (m : Module) (code : Tokens) : Module :=
  { m with content := m.content.map fun (attrs, items) =>
      (attrs, items.map Definition.withoutOptions ++ [.other (.ofTokens code)]) }

/-- The output is the module with the two procedures behind its items, for its data objects as they
are packed. -/
def AppendsProcedures (arguments : Tokens) (m : Module) (out : Tokens) : Prop :=
  ∃ c model sectors rest, m.content.isSome = true ∧ Config.ofArguments arguments = .ok c ∧
    Model.build c (Registry.collect m.items).1 = some model ∧
    pack c.capacity c.sectorCount model.groups = .ok sectors ∧
    out = (m.extended ((Program.procedure c sectors .read).tokens c ++
      (Program.procedure c sectors .save).tokens c ++ rest)).tokens

end Module

/-! ## code in a module -/

/-- The text of a procedure begins with an attribute. -/
theorem exists_tokens_read (c : Config) (sectors : List Sector) :
    ∃ rest, (Program.procedure c sectors .read).tokens c = .sign '#' :: rest := ⟨_, rfl⟩

/-- A program begins with the two procedures. -/
theorem exists_tokens_generate (c : Config) (model : Model) (sectors : List Sector) :
    ∃ rest, (Program.generate c model sectors).tokens c =
      (Program.procedure c sectors .read).tokens c ++
        (Program.procedure c sectors .save).tokens c ++ rest := by
  refine ⟨(Program.sectorFunctionsOf c sectors ++ (Program.generate c model sectors).recordFunctions
    ).flatMap (Function.tokens c) ++ (Program.generate c model sectors).checks.flatten ++
      (Program.generate c model sectors).listings.flatMap fun listing =>
        Program.listingTokens listing.1 listing.2, ?_⟩
  simp only [Program.tokens, Program.functions, Program.generate, Program.bothWays,
    List.flatMap_append, List.flatMap_cons, List.flatMap_nil, List.append_nil, List.append_assoc]

namespace Module

variable {m : Module} {code more : Tokens}

/-- The text of a module with items: what stands in its braces is known in front of them. -/
theorem exists_tokens_of_content {attrs : List Attribute} {items : List Definition}
    (h : m.content = some (attrs, items)) : ∃ front,
      m.plain.tokens = front ++ [.closing .brace] ∧
      ∀ code, (m.extended code).tokens = front ++ code ++ [.closing .brace] := by
  obtain ⟨moduleAttrs, head, content⟩ := m
  subst h
  refine ⟨(attributeFragment moduleAttrs ++ head).tokens ++ .opening .brace ::
    (attributeFragment attrs ++
      definitionFragment (items.map Definition.withoutOptions)).tokens, ?_, fun code => ?_⟩
  · simp [plain, tokens, fragment, Fragment.enclosed, Tokens.enclosed]
  · simp [extended, tokens, fragment, Fragment.enclosed, Tokens.enclosed, definitionFragment,
      Definition.fragment, Fragment.ofTokens]

/-- Code that stands in a module is not the same as code behind it. -/
theorem tokens_extended_ne {rest : Tokens} (hcode : code = .sign '#' :: rest)
    (h : m.content.isSome = true) : (m.extended code).tokens ≠ m.plain.tokens ++ more := by
  obtain ⟨⟨attrs, items⟩, hcontent⟩ := Option.isSome_iff_exists.1 h
  obtain ⟨front, hplain, hextended⟩ := exists_tokens_of_content hcontent
  intro heq
  rw [hplain, hextended, hcode, List.append_assoc, List.append_assoc,
    List.append_cancel_left_eq] at heq
  cases heq

/-- Code behind a module is not code in it, so the procedures do not stand there. -/
theorem not_appendsProcedures {arguments : Tokens} :
    ¬ m.AppendsProcedures arguments (m.plain.tokens ++ more) := by
  rintro ⟨c, model, sectors, rest, hcontent, -, -, -, hout⟩
  obtain ⟨body, hbody⟩ := exists_tokens_read c sectors
  rw [hbody] at hout
  exact tokens_extended_ne rfl hcontent hout.symm

end Module

/-! ## names -/

/-- A function can be named after a record if its type can be named. -/
theorem isIdentifier_recordFunction {record : String} (h : Text.isIdentifier record = true)
    (d : Direction) : Text.isIdentifier (recordFunction d record) = true := by
  cases d with
  | read => exact Text.isIdentifier_append (by decide) h
  | save => exact Text.isIdentifier_append (by decide) h

/-- **Made names** are identifiers if those of records are that are moved whole, and those of
listings. -/
theorem Program.all_madeNames_iff {c : Config} {m : Model} {sectors : List Sector} :
    (madeNames c m sectors).all Text.isIdentifier = true ↔ ¬ Unnameable c m sectors := by
  have hrecords : ((recordsNeeded c m sectors).flatMap fun r =>
        [recordFunction .read r, recordFunction .save r, r]).all Text.isIdentifier = true ↔
      ∀ r ∈ recordsNeeded c m sectors, Text.isIdentifier r = true := by
    rw [List.all_flatMap, List.all_eq_true]
    refine forall₂_congr fun r _ => ⟨fun h => ?_, fun h => ?_⟩
    · simp only [List.all_cons, Bool.and_eq_true] at h
      exact h.2.2.1
    · simp [isIdentifier_recordFunction h, h]
  rw [madeNames, List.all_append, Bool.and_eq_true, hrecords, Unnameable]
  simp

/-! ## stages -/

section

variable {c : Config} {g : Registry} {model : Model}

/-- A model either has faults, and they are found, or it is packed, and there is a program unless a
name is missing. -/
theorem generateProgram_of_build (h : Model.build c g = some model)
    (hcapacity : c.capacity < patterns 64) :
    (model.errors.map Fault.data ++ model.packingFaults c ≠ [] ∧ generateProgram c g =
        some (.error (model.errors.map Fault.data ++ model.packingFaults c))) ∨
      (model.errors.map Fault.data ++ model.packingFaults c = [] ∧ ∃ sectors,
        pack c.capacity c.sectorCount model.groups = .ok sectors ∧ generateProgram c g =
          if (Program.madeNames c model sectors).all Text.isIdentifier then
            some (.ok (.generate c model sectors))
          else none) := by
  rw [generateProgram, h, Option.bind_some, if_neg (Nat.not_le_of_lt hcapacity),
    Model.packingFaults]
  cases hpack : pack c.capacity c.sectorCount model.groups with
  | error e =>
    refine .inl ⟨by simp, ?_⟩
    cases model.errors.map Fault.data <;> rfl
  | ok sectors =>
    cases herrors : model.errors.map Fault.data with
    | nil => exact .inr ⟨rfl, sectors, rfl, rfl⟩
    | cons e errors => exact .inl ⟨List.cons_ne_nil _ _, by simp⟩

/-- Where nothing is wrong, there are no errors. -/
theorem Model.errors_of_faults (h : model.errors.map Fault.data ++ model.packingFaults c = []) :
    model.errors = [] :=
  List.map_eq_nil_iff.1 (List.append_eq_nil_iff.1 h).1

/-- **Programs** are made of models without errors that are packed and can be named. -/
theorem exists_of_generateProgram {p : Program} (h : generateProgram c g = some (.ok p)) :
    ∃ m sectors, Model.build c g = some m ∧ m.errors = [] ∧
      pack c.capacity c.sectorCount m.groups = .ok sectors ∧ c.capacity < patterns 64 ∧
      ¬ Program.Unnameable c m sectors ∧ p = .generate c m sectors := by
  obtain ⟨m, hbuild, hm⟩ := Option.bind_eq_some_iff.1 h
  have hcapacity : c.capacity < patterns 64 := by
    by_contra hle
    rw [if_pos (Nat.not_lt.1 hle)] at hm
    cases hm
  rcases generateProgram_of_build hbuild hcapacity with ⟨-, hfaults⟩ | ⟨hnil, sectors, hpack, hp⟩
  · rw [hfaults] at h
    cases h
  · rw [hp] at h
    split at h
    · next hnames =>
      exact ⟨m, sectors, hbuild, Model.errors_of_faults hnil, hpack, hcapacity,
        Program.all_madeNames_iff.1 hnames, (Except.ok.inj (Option.some.inj h)).symm⟩
    · cases h

theorem generateProgram_eq_ok {sectors : List Sector} (h : Model.build c g = some model)
    (herrors : model.errors = []) (hpack : pack c.capacity c.sectorCount model.groups = .ok sectors)
    (hcapacity : c.capacity < patterns 64) (hnames : ¬ Program.Unnameable c model sectors) :
    generateProgram c g = some (.ok (.generate c model sectors)) := by
  rw [generateProgram, h, Option.bind_some, if_neg (Nat.not_le_of_lt hcapacity), herrors, hpack]
  exact if_pos (Program.all_madeNames_iff.2 hnames)

/-- **No answer**: there is neither a program nor a fault exactly where something stops. -/
theorem generateProgram_eq_none_iff : generateProgram c g = none ↔ c.Stops g := by
  cases hbuild : Model.build c g with
  | none =>
    obtain ⟨w, hw, hcycle⟩ := Model.build_eq_none_iff.1 hbuild
    exact iff_of_true (by rw [generateProgram, hbuild, Option.bind_none]) (.cycle hw hcycle)
  | some model =>
    by_cases hcapacity : c.capacity < patterns 64
    · have hstops : c.Stops g ↔ ∃ sectors, model.errors = [] ∧
          pack c.capacity c.sectorCount model.groups = .ok sectors ∧
          Program.Unnameable c model sectors := by
        constructor
        · rintro (⟨hw, hcycle⟩ | hle | ⟨hm, herrors, hpack, hname⟩)
          · have hnone := Model.build_eq_none_iff.2 ⟨_, hw, hcycle⟩
            rw [hbuild] at hnone
            cases hnone
          · exact absurd hcapacity (Nat.not_lt.2 hle)
          · obtain rfl := Option.some.inj (hbuild.symm.trans hm)
            exact ⟨_, herrors, hpack, hname⟩
        · rintro ⟨sectors, herrors, hpack, hname⟩
          exact .name hbuild herrors hpack hname
      rw [hstops]
      rcases generateProgram_of_build hbuild hcapacity with ⟨hne, hp⟩ | ⟨hnil, sectors, hpack, hp⟩
      · refine iff_of_false (by simp [hp]) ?_
        rintro ⟨sectors, herrors, hpack, -⟩
        exact hne (by simp [herrors, Model.packingFaults, hpack])
      · have hcases : generateProgram c g = none ↔ Program.Unnameable c model sectors := by
          rw [hp, ite_eq_right_iff, Program.all_madeNames_iff]
          simp
        rw [hcases]
        refine ⟨fun h => ⟨sectors, Model.errors_of_faults hnil, hpack, h⟩, ?_⟩
        rintro ⟨sectors', -, hpack', h⟩
        obtain rfl := Except.ok.inj (hpack.symm.trans hpack')
        exact h
    · refine iff_of_true ?_ (.capacity (Nat.not_lt.1 hcapacity))
      rw [generateProgram, hbuild, Option.bind_some, if_pos (Nat.not_lt.1 hcapacity)]

end

namespace Module

variable {m : Module}

/-- There is no answer: the arguments make settings, and something stops the data objects. -/
def Stops (arguments : Tokens) (m : Module) : Prop :=
  m.content.isSome = true ∧ ∃ c, Config.ofArguments arguments = .ok c ∧
    c.Stops (Registry.collect m.items).1

/-- What becomes of a module: faults are reported, and without faults the procedures are there. -/
structure Becomes (arguments : Tokens) (m : Module) (faults : List Fault) (out : Tokens) :
    Prop where
  procedures : m.AppendsProcedures arguments out ↔ faults = []
  reported : faults ≠ [] →
    out = (if m.content.isSome then m.plain.tokens else []) ++ faults.flatMap Fault.tokens
  /-- In both cases the items have lost their options, and nothing else. -/
  items : ∀ item ∈ m.items, item.Loses item.withoutOptions

/-- A module with faults behind it. -/
theorem becomes_of_faults {arguments : Tokens} {faults : List Fault}
    (hcontent : m.content.isSome = true) (hfaults : faults ≠ []) :
    m.Becomes arguments faults (m.plain.withFaults faults) where
  procedures := iff_of_false not_appendsProcedures hfaults
  reported _ := by
    rw [if_pos hcontent]
    rfl
  items item _ := item.loses_withoutOptions

/-- What is wrong with the declarations of a module. -/
def declarationFaults (m : Module) : List Fault :=
  (Registry.collect m.items).2.map Fault.declaration

variable {arguments : Tokens} {attrs : List Attribute} {items : List Definition} {c : Config}

theorem expand_of_configErrors (hcontent : m.content = some (attrs, items))
    {errors : List ConfigError} (hc : Config.ofArguments arguments = .error errors) :
    m.faults arguments = some (Config.faults arguments ++ m.declarationFaults) ∧
      m.expand arguments =
        some (m.plain.withFaults (Config.faults arguments ++ m.declarationFaults)) := by
  simp [faults, expand, declarationFaults, Module.items, plain, Config.faults, hcontent, hc]

theorem expand_of_stops (hcontent : m.content = some (attrs, items))
    (hc : Config.ofArguments arguments = .ok c)
    (hstops : generateProgram c (Registry.collect m.items).1 = none) :
    m.expand arguments = none := by
  simp_all [expand, Module.items]

theorem expand_of_model (hcontent : m.content = some (attrs, items))
    (hc : Config.ofArguments arguments = .ok c)
    (hgoes : generateProgram c (Registry.collect m.items).1 ≠ none) :
    ∃ found out, m.faults arguments = some found ∧ m.expand arguments = some out ∧
      m.Becomes arguments found out := by
  obtain ⟨result, hresult⟩ := Option.ne_none_iff_exists'.1 hgoes
  obtain ⟨model, hmodel, hfits⟩ := Option.bind_eq_some_iff.1 hresult
  have hcapacity : c.capacity < patterns 64 := by
    by_contra hle
    rw [if_pos (Nat.not_lt.1 hle)] at hfits
    cases hfits
  have hfaults : m.faults arguments =
      some (m.declarationFaults ++ (model.errors.map Fault.data ++ model.packingFaults c)) := by
    simp_all [faults, declarationFaults, Module.items]
  have hsome : m.content.isSome = true := by rw [hcontent]; rfl
  rcases generateProgram_of_build hmodel hcapacity with ⟨hne, hprogram⟩ | ⟨hnil, sectors, hpack, hp⟩
  · refine ⟨_, _, hfaults, ?_, becomes_of_faults hsome (List.append_ne_nil_of_right_ne_nil _ hne)⟩
    simp_all [expand, declarationFaults, Module.items, plain]
  · have hprogram : generateProgram c (Registry.collect m.items).1 =
        some (.ok (.generate c model sectors)) := by
      split at hp
      · exact hp
      · exact absurd hp hgoes
    by_cases hdeclared : m.declarationFaults = []
    · obtain ⟨rest, htokens⟩ := exists_tokens_generate c model sectors
      refine ⟨_, (m.extended ((Program.generate c model sectors).tokens c)).tokens, hfaults, ?_, ?_⟩
      · simp_all [expand, declarationFaults, Module.items, extended]
      · rw [hdeclared, hnil]
        refine ⟨iff_of_true ?_ rfl, fun hne => absurd rfl hne, fun item _ =>
          item.loses_withoutOptions⟩
        exact ⟨c, model, sectors, rest, hsome, hc, hmodel, hpack, by rw [htokens]⟩
    · refine ⟨_, m.plain.withFaults m.declarationFaults, hfaults, ?_, ?_⟩
      · simp_all [expand, declarationFaults, Module.items, plain]
      · rw [hnil, List.append_nil]
        exact becomes_of_faults hsome hdeclared

end Module

namespace Sample

/-- Arguments for one data object of a type, in sectors of so many bytes. -/
def argumentsFor (type sectorSize : String) : Tokens :=
  [.ident "sector_size", .sign '=', .literal sectorSize, .sign ',', .ident "read", .sign '=',
    .ident "r", .sign ',', .ident "save", .sign '=', .ident "s", .sign ',', .ident "data",
    .opening .paren, .ident "obj", .sign ':', .ident type, .closing .paren]

/-- A module with a struct of one byte. -/
def structModule (name : String) : Module where
  attrs := []
  head := .ofTokens [.ident "mod", .ident "m"]
  content := some ([], [.record ⟨[], ∅, .struct, name, ∅, ∅,
    .named [⟨[], ∅, "a", .name "u8"⟩] false⟩])

/-- A sector of a quarter of all bytes that can be counted has too many bits. -/
example : (structModule "S").expand (argumentsFor "S" "4611686018427387904") = none := by
  decide +kernel

/-- A module in another file, without arguments: all that is wrong is found together. -/
example : (Module.faults [] { structModule "S" with content := none }).map (·.map Fault.message) =
    some ["bitpack: missing `sector_size = N`", "bitpack: missing `read = function_name`",
      "bitpack: missing `save = function_name`",
      "#[bitpack] must be applied to an inline module `mod name \x7b ... \x7d`"] := by
  decide +kernel

end Sample

end BitLayout
